import Jack.Text.Numeral
import Jack.Token.Kind

/-!
# The first piece of a text

A source text is cut into pieces: gaps (blanks and comments), tokens, and at most one faulty piece, which
ends the scan. Each piece is the longest one that can stand at its place. `Piece.first` cuts off one
piece; the pieces are never empty and lose no character.
-/

namespace Jack

/-! ## Classes of characters

Only ASCII letters, digits and blanks count. -/

def isBlank (c : Char) : Bool := c == ' ' || c == '\t' || c == '\r' || c == '\n' || c == '\x0c'

def isWordStart (c : Char) : Bool := c.isAlpha || c == '_'

def isWordChar (c : Char) : Bool := c.isAlphanum || c == '_'

/-- A character that may stand between the quotes of a string constant. -/
def isStringChar (c : Char) : Bool := c != '"' && c != '\n'

/-! ## Constants -/

def maxInt : Nat := 32767

/-- Why a piece of text is no token. -/
inductive ScanFault where
  | integerTooLarge
  | unterminatedString
  | unclosedComment
  | strayCharacter
deriving DecidableEq, Repr, Inhabited

def ScanFault.message : ScanFault → String
  | .integerTooLarge => String.join ["integer constant out of range (max ", toString maxInt, ")"]
  | .unterminatedString => "unterminated string constant"
  | .unclosedComment => "unexpected character"
  | .strayCharacter => "unexpected character"

inductive Role where
  | gap
  | token (kind : Kind)
  | fault (cause : ScanFault)
deriving DecidableEq, Repr, Inhabited

/-- A piece cut off a text, its role, and the text after it. -/
structure Piece where
  role : Role
  text : List Char
  rest : List Char
deriving DecidableEq, Repr, Inhabited

namespace Piece

/-- Cuts a text after its first `*/`. -/
def splitComment : List Char → Option (List Char × List Char)
  | '*' :: '/' :: rest => some (['*', '/'], rest)
  | c :: rest => (splitComment rest).map fun (body, after) => (c :: body, after)
  | [] => none

/-- The piece that is `front` followed by as many characters of a class as there are. -/
def run (role : List Char → Role) (front : List Char) (class? : Char → Bool) (text : List Char) : Piece :=
  let whole := front ++ text.takeWhile class?
  ⟨role whole, whole, text.dropWhile class?⟩

/-- A run of digits is an integer constant, if it is not too large. The number is read with sixteen bits. -/
def integerRole (digits : List Char) : Role :=
  if (Numeral.unsigned? UInt16.size digits).any (· ≤ maxInt) then .token .intConst
  else .fault .integerTooLarge

/-- A word is the keyword that it spells, or an identifier. -/
def wordRole (word : List Char) : Role :=
  match Keyword.ofText? (String.ofList word) with
  | some keyword => .token (.keyword keyword)
  | none => .token .ident

/-- The piece that a quote opens: a string constant if another quote closes it on the same line. -/
def quoted (text : List Char) : Piece :=
  let body := text.takeWhile isStringChar
  match text.dropWhile isStringChar with
  | '"' :: rest => ⟨.token .strConst, '"' :: body ++ ['"'], rest⟩
  | rest => ⟨.fault .unterminatedString, '"' :: body, rest⟩

/-- The piece that a slash opens: a comment to the end of the line, a comment to the first `*/`, or
the symbol. -/
def slashed : List Char → Piece
  | '/' :: rest => run (fun _ => .gap) ['/', '/'] (· != '\n') rest
  | '*' :: rest =>
    match splitComment rest with
    | some (body, after) => ⟨.gap, '/' :: '*' :: body, after⟩
    | none => ⟨.fault .unclosedComment, '/' :: '*' :: rest, []⟩
  | rest => ⟨.token (.symbol .slash), ['/'], rest⟩

/-- The first piece of the text that begins with `c` and goes on with `rest`. -/
def first (c : Char) (rest : List Char) : Piece :=
  if isBlank c then run (fun _ => .gap) [c] isBlank rest
  else if c.isDigit then run integerRole [c] Char.isDigit rest
  else if isWordStart c then run wordRole [c] isWordChar rest
  else if c = '"' then quoted rest
  else if c = '/' then slashed rest
  else match Symbol.ofChar? c with
    | some symbol => ⟨.token (.symbol symbol), [c], rest⟩
    | none => ⟨.fault .strayCharacter, [c], rest⟩

/-! ## No character is lost -/

theorem splitComment_eq {text body rest : List Char} (h : splitComment text = some (body, rest)) :
    body ++ rest = text := by
  fun_induction splitComment text generalizing body with
  | case1 rest' =>
    simp only [Option.some.injEq, Prod.mk.injEq] at h
    obtain ⟨rfl, rfl⟩ := h
    rfl
  | case2 c text _ ih =>
    obtain ⟨⟨inner, after⟩, found, same⟩ := Option.map_eq_some_iff.mp h
    simp only [Prod.mk.injEq] at same
    obtain ⟨rfl, rfl⟩ := same
    simp [ih found]
  | case3 => simp at h

theorem run_eq (role : List Char → Role) (front : List Char) (class? : Char → Bool) (text : List Char) :
    (run role front class? text).text ++ (run role front class? text).rest = front ++ text := by
  simp [run, List.takeWhile_append_dropWhile]

theorem quoted_eq (text : List Char) : (quoted text).text ++ (quoted text).rest = '"' :: text := by
  have whole := text.takeWhile_append_dropWhile (p := isStringChar)
  unfold quoted
  split
  · rename_i rest after
    rw [after] at whole
    simpa using whole
  · simp [whole]

theorem slashed_eq (text : List Char) : (slashed text).text ++ (slashed text).rest = '/' :: text := by
  unfold slashed
  split
  · simp [run_eq]
  · split
    · rename_i closed
      simp [splitComment_eq closed]
    · simp
  · simp

/-- A piece and what follows it make up the text. -/
theorem first_eq (c : Char) (rest : List Char) : (first c rest).text ++ (first c rest).rest = c :: rest := by
  unfold first
  split
  · simp [run_eq]
  split
  · simp [run_eq]
  split
  · simp [run_eq]
  split
  · rename_i quote
    simp [quoted_eq, quote]
  split
  · rename_i slash
    simp [slashed_eq, slash]
  split <;> rfl

theorem first_text_ne_nil (c : Char) (rest : List Char) : (first c rest).text ≠ [] := by
  unfold first
  split
  · simp [run]
  split
  · simp [run]
  split
  · simp [run]
  split
  · unfold quoted; split <;> simp
  split
  · unfold slashed; split
    · simp [run]
    · split <;> simp
    · simp
  split <;> simp

theorem first_rest_length_lt (c : Char) (rest : List Char) :
    (first c rest).rest.length < (c :: rest).length := by
  have whole := congrArg List.length (first_eq c rest)
  have nonempty := List.length_pos_iff.mpr (first_text_ne_nil c rest)
  rw [List.length_append] at whole
  omega

end Piece

end Jack
