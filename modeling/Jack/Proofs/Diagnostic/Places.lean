import Jack.Analysis
import Jack.Proofs.Parse.FirstError
import Jack.Proofs.Text.Lines
import Jack.Proofs.Token.Faults

/-!
# Where errors are reported

Every error in a source is reported at a stretch of the source, between two characters and on the line that
the stretch begins on. A fault of scanning is reported at the faulty text, and a violation of the grammar at
the first token that was not read, or at the end of the source if there is none.
-/

namespace Jack

/-! ## Stretches of a source -/

/-- The span marks off a part of the source, from one character to another, and the line it begins on. -/
structure Span.Within (source : String) (span : Span) : Prop where
  start : String.Pos.Raw.IsValid source ⟨span.start⟩
  stop : String.Pos.Raw.IsValid source ⟨span.stop⟩
  ordered : span.start ≤ span.stop
  line : span.line = 1 + lineFeeds source span.start
  lookUp : newlineCount source.toList < UInt32.size - 1 →
    span.line = (LineTable.ofText source).lineOf span.start

theorem isValid_byteLength (before after : List Char) :
    String.Pos.Raw.IsValid (String.ofList (before ++ after)) ⟨byteLength before⟩ := by
  rw [String.Pos.Raw.isValid_iff_exists_append]
  refine ⟨String.ofList before, String.ofList after, String.ofList_append, ?_⟩
  rw [byteLength_eq_utf8ByteSize]
  rfl

theorem Position.cover_start (before text : List Char) :
    (Position.start.past before).cover text =
      ⟨byteLength before, byteLength (before ++ text), 1 + newlineCount before⟩ := by
  simp [Position.cover, Position.past, Position.start]

theorem Position.within_cover (before text after : List Char) :
    ((Position.start.past before).cover text).Within (String.ofList (before ++ text ++ after)) := by
  have line : lineFeeds (String.ofList (before ++ text ++ after)) (byteLength before) =
      newlineCount before := by
    rw [List.append_assoc, lineFeeds_append]
  rw [Position.cover_start]
  exact {
    start := by
      rw [List.append_assoc]
      exact isValid_byteLength before (text ++ after)
    stop := isValid_byteLength (before ++ text) after
    ordered := by
      rw [byteLength_append]
      exact Nat.le_add_right _ _
    line := congrArg (1 + ·) line.symm
    lookUp := fun few => by rw [LineTable.lineOf_ofText few, line] }

/-! ## Faults of scanning -/

/-- The diagnostic reports a piece of the text as faulty, if the text begins at the place. -/
def Diagnostic.Reports (place : Position) (text : List Char) (d : Diagnostic) : Prop :=
  ∃ before piece after message, text = before ++ piece ++ after ∧
    d = .scan message (String.ofList piece) ((place.past before).cover piece)

theorem Token.reports_of_scanFrom {place : Position} {text : List Char} {d : Diagnostic}
    (faulty : scanFrom place text = .error d) : d.Reports place text := by
  obtain ⟨before, -, piece, after, cause, rfl, -, -, rfl⟩ := scanFrom_eq_error_iff.mp faulty
  exact ⟨before, piece, after, cause.message, (List.append_assoc before piece after).symm, rfl⟩

theorem Diagnostic.Reports.within {source : String} {d : Diagnostic}
    (reports : d.Reports .start source.toList) : d.span.Within source := by
  obtain ⟨before, piece, after, message, split, rfl⟩ := reports
  rw [← String.ofList_toList (s := source), split]
  exact Position.within_cover before piece after

/-! ## Tokens that were not expected -/

theorem Token.within_of_scan {source : String} {tokens : List Token} (scanned : scan source = .ok tokens)
    {token : Token} (member : token ∈ tokens) : token.span.Within source ∧ token.isEof = false := by
  obtain ⟨before, text, after, split, span, spelling, _⟩ :=
    (layout_of_scanFrom scanned).exists_split member
  constructor
  · rw [← String.ofList_toList (s := source), split, span]
    exact Position.within_cover before text after
  · simpa [isEof] using spelling.kind_ne_eof

theorem lineFeeds_utf8ByteSize (source : String) :
    lineFeeds source source.utf8ByteSize = newlineCount source.toList := by
  rw [← byteLength_toList, ← lineFeeds_append source.toList [], List.append_nil, String.ofList_toList]

theorem Token.endOf_eq (source : String) :
    endOf source = .endOfInput source.utf8ByteSize (1 + lineFeeds source source.utf8ByteSize) := by
  simp [endOf, Position.past, Position.start, byteLength_toList, lineFeeds_utf8ByteSize]

theorem Token.within_endOf (source : String) : (endOf source).span.Within source := by
  have within := Position.within_cover source.toList [] []
  rw [List.append_nil, List.append_nil, String.ofList_toList] at within
  exact within

namespace Diagnostic

theorem location_ne_atEnd (lexeme : String) : String.join [" at '", lexeme, "'"] ≠ " at end" := by
  intro same
  have fifth := congrArg (fun text : String => text.toList[4]?) same
  simp at fifth

theorem location_eq_atEnd_iff {violation : Violation} {found : Token} :
    (grammar violation found).location = " at end" ↔ found.isEof = true := by
  rw [location]
  split_ifs with last
  · exact iff_of_true rfl last
  · exact iff_of_false (location_ne_atEnd found.lexeme) last

end Diagnostic

/-! ## Sources -/

/-- How many tokens of a source that scans the parser has read when it stops. -/
def tokensRead (settings : Settings) (source : String) (tokens : List Token) : Nat :=
  (parseClass settings.maxDepth ⟨tokens, .endOf source⟩).readOf tokens

theorem parseSource_violation {settings : Settings} {source : String} {tokens : List Token} {d : Diagnostic}
    (scanned : Token.scan source = .ok tokens) (failed : parseSource settings source = .error d) :
    ∃ violation found, d = .grammar violation found ∧
      (tokens[tokensRead settings source tokens]? = some found ∨
        tokensRead settings source tokens = tokens.length ∧ found = .endOf source) := by
  rw [parseSource_of_scan scanned] at failed
  have failed' := error_of_map failed
  obtain ⟨violation, found, rfl⟩ := parseClass_error failed'
  refine ⟨violation, found, rfl, ?_⟩
  obtain ⟨read, rest, rfl, same, _, count⟩ := parseClass_failed failed'
  have count' : tokensRead settings source (read ++ rest) = read.length := count
  rw [count']
  cases rest with
  | nil => exact Or.inr ⟨by simp, same⟩
  | cons token rest => exact Or.inl (by simp [same])

theorem parseSource_located (settings : Settings) (source : String) :
    (∀ d, Token.scan source = .error d →
      (∃ message lexeme span, d = .scan message lexeme span) ∧ parseSource settings source = .error d) ∧
    (∀ tokens d, Token.scan source = .ok tokens → parseSource settings source = .error d →
      ∃ violation found, d = .grammar violation found ∧
        (tokens[tokensRead settings source tokens]? = some found ∨
          tokensRead settings source tokens = tokens.length ∧ found =
            .endOfInput source.utf8ByteSize (1 + lineFeeds source source.utf8ByteSize))) ∧
    ∀ d, parseSource settings source = .error d → d.span.Within source ∧
      d.line = 1 + lineFeeds source d.span.start ∧
      (d.location = " at end" ↔ ∃ tokens, Token.scan source = .ok tokens ∧
        tokensRead settings source tokens = tokens.length) := by
  refine ⟨?_, ?_, ?_⟩
  · intro d faulty
    obtain ⟨_, piece, _, message, _, same⟩ := Token.reports_of_scanFrom faulty
    exact ⟨⟨message, _, _, same⟩, parseSource_of_fault faulty settings⟩
  · intro tokens d scanned failed
    rw [← Token.endOf_eq]
    exact parseSource_violation scanned failed
  · intro d failed
    cases scanned : Token.scan source with
    | error e =>
        have reports := Token.reports_of_scanFrom scanned
        obtain rfl : e = d := by
          rw [parseSource_of_fault scanned] at failed
          exact Except.error.inj failed
        refine ⟨reports.within, reports.within.line, iff_of_false ?_ (by simp)⟩
        obtain ⟨_, piece, _, message, _, rfl⟩ := reports
        exact Diagnostic.location_ne_atEnd _
    | ok tokens =>
        obtain ⟨violation, found, rfl, here⟩ := parseSource_violation scanned failed
        rw [Diagnostic.location_eq_atEnd_iff]
        rcases here with read | ⟨all, rfl⟩
        · obtain ⟨within, real⟩ := Token.within_of_scan scanned (List.mem_of_getElem? read)
          refine ⟨within, within.line, iff_of_false (by simp [real]) ?_⟩
          rintro ⟨_, same, all⟩
          cases same
          rw [List.getElem?_eq_none (Nat.le_of_eq all.symm)] at read
          cases read
        · have within := Token.within_endOf source
          exact ⟨within, within.line, iff_of_true rfl ⟨tokens, rfl, all⟩⟩

/-- A class that is not closed, before a comment of two lines with a character of two bytes. -/
def unclosedSource : String := "class A \x7b\r\n/*é\n*/"

theorem parseSource_located_unclosed :
    parseSource {} unclosedSource =
      .error (.grammar (.unexpected [.symbol .rBrace]) (.endOfInput 18 3)) ∧
    (Span.point 18 3).Within unclosedSource ∧
    Diagnostic.line (.grammar (.unexpected [.symbol .rBrace]) (.endOfInput 18 3)) =
      1 + lineFeeds unclosedSource 18 ∧
    ∃ tokens, Token.scan unclosedSource = .ok tokens ∧
      tokensRead {} unclosedSource tokens = tokens.length := by
  have failed : parseSource {} unclosedSource =
      .error (.grammar (.unexpected [.symbol .rBrace]) (.endOfInput 18 3)) := by decide +kernel
  obtain ⟨within, line, atEnd⟩ := (parseSource_located {} unclosedSource).2.2 _ failed
  exact ⟨failed, within, line, atEnd.mp rfl⟩

end Jack
