import Jack.Proofs.Token.Faults

/-!
# Scanning on both sides of a line break

A text that scans ends outside of strings and block comments, and a line feed ends whatever else is open at its
end. So what stands on the next line scans as if it stood alone, but for its place, and a fault before the line
break is reported whatever comes after it, unless it is a block comment that may yet be closed.
-/

namespace Jack

/-! ## Moving -/

section

variable (bytes lines : Nat)

def Position.moved (place : Position) : Position := ⟨place.offset + bytes, place.line + lines⟩

def Span.moved (span : Span) : Span := ⟨span.start + bytes, span.stop + bytes, span.line + lines⟩

def Token.moved (token : Token) : Token := { token with span := token.span.moved bytes lines }

def Diagnostic.moved : Diagnostic → Diagnostic
  | .grammar violation found => .grammar violation (found.moved bytes lines)
  | .scan message lexeme span => .scan message lexeme (span.moved bytes lines)

theorem Position.past_moved (place : Position) (text : List Char) :
    (place.moved bytes lines).past text = (place.past text).moved bytes lines := by
  simp only [moved, past, Nat.add_right_comm]

theorem Position.cover_moved (place : Position) (text : List Char) :
    (place.moved bytes lines).cover text = (place.cover text).moved bytes lines := by
  simp only [moved, cover, Span.moved, Nat.add_right_comm]

theorem Token.scanFrom_moved (place : Position) (text : List Char) :
    scanFrom (place.moved bytes lines) text =
      match scanFrom place text with
      | .ok tokens => .ok (tokens.map (moved bytes lines))
      | .error d => .error (d.moved bytes lines) := by
  fun_induction scanFrom place text with
  | case1 place =>
      rw [scanFrom]
      rfl
  | case2 place c more piece role ih =>
      have cut : Piece.first c more = ⟨.gap, piece.text, piece.rest⟩ := by rw [← role]
      rw [scanFrom_of_gap cut, Position.past_moved]
      exact ih
  | case3 place c more piece kind role ih =>
      have cut : Piece.first c more = ⟨.token kind, piece.text, piece.rest⟩ := by rw [← role]
      rw [scanFrom_of_token cut, Position.past_moved, ih, Position.cover_moved]
      cases scanFrom (place.past piece.text) piece.rest <;> rfl
  | case4 place c more piece cause role =>
      have cut : Piece.first c more = ⟨.fault cause, piece.text, piece.rest⟩ := by rw [← role]
      rw [scanFrom_of_fault cut, Position.cover_moved]
      rfl

end

/-! ## Line breaks -/

namespace Token

theorem scanFrom_lineFeed {place : Position} {text : List Char} {tokens : List Token}
    (scanned : scanFrom place text = .ok tokens) (next : List Char) :
    scanFrom place (text ++ '\n' :: next) =
      (scanFrom (place.moved (byteLength text + 1) (newlineCount text + 1)) next).map (tokens ++ ·) := by
  have front := (layout_of_scanFrom scanned).front.of_breaksAs (.lineFeed next [])
  rw [front.scanFrom_append, scanFrom_blank rfl, ← Position.past_append]
  have behind : place.past (text ++ ['\n']) = place.moved (byteLength text + 1) (newlineCount text + 1) := by
    rw [Position.past, byteLength_append, newlineCount, List.count_append]
    rfl
  rw [behind]

theorem scanFrom_lineFeed_of_fault {place : Position} {text : List Char} {message lexeme : String} {span : Span}
    (faulty : scanFrom place text = .error (.scan message lexeme span))
    (noComment : ¬ ['/', '*'] <+: lexeme.toList) (next : List Char) :
    scanFrom place (text ++ '\n' :: next) = .error (.scan message lexeme span) := by
  obtain ⟨before, tokens, text, after, cause, rfl, front, flaw, same⟩ := scanFrom_eq_error_iff.mp faulty
  cases same
  -- Only a comment that is still open could have its flaw mended on the next line.
  have closed : cause ≠ .unclosedComment := by
    rintro rfl
    cases flaw with
    | @comment body _ =>
        apply noComment
        rw [String.toList_ofList]
        exact ⟨body, rfl⟩
  have further := BreaksAs.append_lineFeed after next
  have front' := front.of_breaksAs (further.behind text)
  rw [List.append_assoc, List.append_assoc]
  exact scanFrom_of_flaw front' (flaw.of_breaksAs closed further)

theorem toList_lineBreak (a b : String) : (a ++ "\n" ++ b).toList = a.toList ++ '\n' :: b.toList := by
  simp

theorem scan_lineBreak (a b : String) :
    (∀ tokens, scan a = .ok tokens →
      (∀ more, scan b = .ok more → scan (a ++ "\n" ++ b) =
        .ok (tokens ++ more.map (moved (a.utf8ByteSize + 1) (a.toList.count '\n' + 1)))) ∧
      ∀ d, scan b = .error d → scan (a ++ "\n" ++ b) =
        .error (d.moved (a.utf8ByteSize + 1) (a.toList.count '\n' + 1))) ∧
    ∀ message lexeme span, scan a = .error (.scan message lexeme span) →
      ¬ ['/', '*'] <+: lexeme.toList → scan (a ++ "\n" ++ b) = .error (.scan message lexeme span) := by
  constructor
  · intro tokens scanned
    have joined := scanFrom_lineFeed scanned b.toList
    rw [← toList_lineBreak, scanFrom_moved, byteLength_toList, ← scan, ← scan] at joined
    constructor
    · intro more scanned'
      rw [joined, scanned']
      rfl
    · intro d faulty
      rw [joined, faulty]
      rfl
  · intro message lexeme span faulty noComment
    rw [scan, toList_lineBreak]
    exact scanFrom_lineFeed_of_fault faulty noComment b.toList

theorem scan_lineBreak_openComment :
    scan ("x//é" ++ "\n" ++ "y") = .ok [⟨.ident, "x", ⟨0, 1, 1⟩⟩, ⟨.ident, "y", ⟨6, 7, 2⟩⟩] ∧
    scan ("x//é" ++ "\n" ++ "\"s") = .error (.scan "unterminated string constant" "\"s" ⟨6, 8, 2⟩) ∧
    scan ("é" ++ "\n" ++ "*/") = .error (.scan "unexpected character" "é" ⟨0, 2, 1⟩) := by
  have scanned : scan "x//é" = .ok [⟨.ident, "x", ⟨0, 1, 1⟩⟩] := by decide +kernel
  have next : scan "y" = .ok [⟨.ident, "y", ⟨0, 1, 1⟩⟩] := by decide +kernel
  have faulty : scan "\"s" = .error (.scan "unterminated string constant" "\"s" ⟨0, 2, 1⟩) := by
    decide +kernel
  have stray : scan "é" = .error (.scan "unexpected character" "é" ⟨0, 2, 1⟩) := by decide +kernel
  refine ⟨?_, ?_, ?_⟩
  · exact ((scan_lineBreak "x//é" "y").1 _ scanned).1 _ next
  · exact ((scan_lineBreak "x//é" "\"s").1 _ scanned).2 _ faulty
  · exact (scan_lineBreak "é" "*/").2 _ _ _ stray (by decide +kernel)

end Token

end Jack
