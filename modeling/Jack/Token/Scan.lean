import Jack.Diagnostic
import Jack.Token.Piece

/-!
# Scanning

A source text is cut into pieces from left to right; the tokens among them are kept with their places,
and the first faulty piece ends the scan.
-/

namespace Jack

namespace Token

/-- The literal text of a token: what stands between the quotes of a string constant, the whole piece
for every other kind. -/
def lexemeOf (kind : Kind) (text : List Char) : String :=
  match kind with
  | .strConst => String.ofList text.tail.dropLast
  | _ => String.ofList text

/-- The tokens of a text that begins at a place, or the first fault in it. -/
def scanFrom (place : Position) (text : List Char) : Except Diagnostic (List Token) :=
  match text with
  | [] => .ok []
  | c :: more =>
    let piece := Piece.first c more
    match piece.role with
    | .gap => scanFrom (place.past piece.text) piece.rest
    | .token kind =>
      (scanFrom (place.past piece.text) piece.rest).map
        (⟨kind, lexemeOf kind piece.text, place.cover piece.text⟩ :: ·)
    | .fault cause =>
      .error (.scan cause.message (String.ofList piece.text) (place.cover piece.text))
termination_by text.length
decreasing_by all_goals exact Piece.first_rest_length_lt c more

/-- The tokens of a source text, without a token for the end of input. -/
def scan (source : String) : Except Diagnostic (List Token) := scanFrom .start source.toList

/-- The token for the end of a source text: it stands after the last byte, on the last line. -/
def endOf (source : String) : Token :=
  let place := Position.start.past source.toList
  endOfInput place.offset place.line

end Token

end Jack
