import Jack.Proofs.Diagnostic.Places
import Jack.Proofs.Trace.OneLineEach

/-!
# Reports of one line

The report of an error takes one line, with one exception: a comment that is never closed is quoted as far as
it goes, over as many lines as are left of the source.
-/

namespace Jack

/-! ## Messages -/

theorem newline_not_mem_toDigits (n : Nat) : '\n' ∉ Nat.toDigits 10 n := by
  intro member
  cases Nat.isDigit_of_mem_toDigits (by omega) (by omega) member

theorem newline_not_mem_intercalate {separator : String} {items : List String}
    (apart : '\n' ∉ separator.toList) (plain : ∀ item ∈ items, '\n' ∉ item.toList) :
    '\n' ∉ (String.intercalate separator items).toList := by
  rw [String.toList_intercalate]
  induction items with
  | nil => simp
  | cons item rest ih =>
      obtain ⟨here, others⟩ := List.forall_mem_cons.mp plain
      cases rest with
      | nil => simpa using here
      | cons next more =>
          rw [List.map_cons, List.map_cons, List.intercalate_cons_cons]
          simpa [here, apart] using ih others

theorem Kind.newline_not_mem_describe (kind : Kind) : '\n' ∉ kind.describe.toList := by
  cases kind with
  | keyword word => cases word <;> decide +kernel
  | symbol sign => cases sign <;> decide +kernel
  | intConst | strConst | ident | eof => decide +kernel

theorem Violation.newline_not_mem_message (violation : Violation) : '\n' ∉ violation.message.toList := by
  fun_cases Violation.message violation with
  | case1 kind => simp [kind.newline_not_mem_describe]
  | case2 kinds _ =>
      have listed : '\n' ∉ (String.intercalate ", " (kinds.map Kind.describe)).toList := by
        apply newline_not_mem_intercalate (by decide +kernel)
        intro item member
        obtain ⟨kind, _, rfl⟩ := List.mem_map.mp member
        exact kind.newline_not_mem_describe
      rw [String.toList_join]
      simpa using listed
  | case3 => decide +kernel
  | case4 limit => simp [newline_not_mem_toDigits]

theorem ScanFault.newline_not_mem_message (cause : ScanFault) : '\n' ∉ cause.message.toList := by
  cases cause <;> decide +kernel

namespace Diagnostic

theorem newline_mem_report_iff {d : Diagnostic} (plain : '\n' ∉ d.message.toList) :
    '\n' ∈ d.report.toList ↔ '\n' ∈ d.location.toList := by
  simp [report, newline_not_mem_toDigits, plain]

theorem newline_mem_report_scan (cause : ScanFault) (text : List Char) (span : Span) :
    '\n' ∈ (scan cause.message (String.ofList text) span).report.toList ↔ '\n' ∈ text := by
  have plain : '\n' ∉ (scan cause.message (String.ofList text) span).message.toList :=
    cause.newline_not_mem_message
  rw [newline_mem_report_iff plain]
  simp [location]

theorem newline_not_mem_report_grammar (violation : Violation) {found : Token}
    (plain : '\n' ∉ found.lexeme.toList) : '\n' ∉ (grammar violation found).report.toList := by
  have message : '\n' ∉ (grammar violation found).message.toList := violation.newline_not_mem_message
  rw [newline_mem_report_iff message, location]
  split_ifs
  · decide +kernel
  · simpa using plain

end Diagnostic

/-! ## Sources -/

/-- Behind some tokens, the source opens a comment that it never closes, and the comment goes on over the end of
a line. -/
def LeavesCommentOpen (source : String) : Prop :=
  ∃ before tokens body, source.toList = before ++ '/' :: '*' :: body ∧
    Front .start before tokens ('/' :: '*' :: body) ∧ ¬ ['*', '/'] <:+: body ∧ '\n' ∈ body

theorem Flaw.of_newline_mem {cause : ScanFault} {text after : List Char} (flaw : Flaw cause text after)
    (member : '\n' ∈ text) :
    ∃ body, text = '/' :: '*' :: body ∧ after = [] ∧ ¬ ['*', '/'] <:+: body ∧ '\n' ∈ body := by
  cases flaw with
  | integer _ decimal _ _ => cases decimal '\n' member
  | string plain _ =>
      rcases List.mem_cons.mp member with same | inside
      · cases same
      · exact absurd rfl (plain '\n' inside).2
  | @comment body unclosed => exact ⟨body, rfl, rfl, unclosed, by simpa using member⟩
  | stray _ blank _ _ _ =>
      rw [← List.mem_singleton.mp member] at blank
      cases blank

theorem LeavesCommentOpen.scan {source : String} (left : LeavesCommentOpen source) :
    ∃ text span, Token.scan source = .error (.scan ScanFault.unclosedComment.message (String.ofList text) span) ∧
      '\n' ∈ text := by
  obtain ⟨before, tokens, body, split, front, unclosed, inside⟩ := left
  have flaw : Flaw .unclosedComment ('/' :: '*' :: body) [] := .comment unclosed
  have faulty := Token.scanFrom_of_flaw (by rwa [List.append_nil]) flaw
  rw [List.append_nil, ← split] at faulty
  exact ⟨_, _, faulty, by simpa using inside⟩

theorem newline_mem_report_of_fault {source : String} {d : Diagnostic} (faulty : Token.scan source = .error d) :
    '\n' ∈ d.report.toList ↔ LeavesCommentOpen source := by
  constructor
  · intro newline
    obtain ⟨before, tokens, text, after, cause, split, front, flaw, rfl⟩ :=
      Token.scanFrom_eq_error_iff.mp faulty
    rw [Diagnostic.newline_mem_report_scan] at newline
    obtain ⟨body, rfl, rfl, unclosed, inside⟩ := flaw.of_newline_mem newline
    rw [List.append_nil] at split front
    exact ⟨before, tokens, body, split, front, unclosed, inside⟩
  · intro left
    obtain ⟨text, span, scanned, inside⟩ := left.scan
    obtain rfl := Except.error.inj (faulty.symm.trans scanned)
    rwa [Diagnostic.newline_mem_report_scan]

theorem newline_not_mem_report_of_violation {settings : Settings} {source : String} {tokens : List Token}
    {d : Diagnostic} (scanned : Token.scan source = .ok tokens) (failed : parseSource settings source = .error d) :
    '\n' ∉ d.report.toList := by
  obtain ⟨violation, found, rfl, here⟩ := parseSource_violation scanned failed
  apply Diagnostic.newline_not_mem_report_grammar
  rcases here with read | ⟨-, rfl⟩
  · have wellFormed : ∀ token ∈ tokens, token.word.WellFormed :=
      List.forall_mem_map.mp (Token.wellFormed_of_scan scanned)
    exact (wellFormed found (List.mem_of_getElem? read)).newline_not_mem
  · simp [Token.endOf, Token.endOfInput]

theorem report_one_line (settings : Settings) (source : String) (d : Diagnostic)
    (failed : Token.scan source = .error d ∨ parseSource settings source = .error d) :
    '\n' ∈ d.report.toList ↔ LeavesCommentOpen source := by
  cases scanned : Token.scan source with
  | error e =>
      have same : e = d := by
        rw [scanned, parseSource_of_fault scanned] at failed
        exact failed.elim Except.error.inj Except.error.inj
      rw [same] at scanned
      exact newline_mem_report_of_fault scanned
  | ok tokens =>
      rw [scanned] at failed
      have failed' := failed.resolve_left (by simp)
      refine iff_of_false (newline_not_mem_report_of_violation scanned failed') ?_
      intro left
      obtain ⟨text, span, faulty, -⟩ := left.scan
      cases scanned.symm.trans faulty

/-- A name, and then a comment that is opened on one line and not closed on the next. -/
def openComment : String := "x/*é\n"

-- The source of the second report has a comment of two lines as well, but it is closed.
theorem report_one_line_openComment :
    Token.scan openComment = .error (.scan "unexpected character" "/*é\n" ⟨1, 6, 1⟩) ∧
    LeavesCommentOpen openComment ∧
    parseSource {} unclosedSource =
      .error (.grammar (.unexpected [.symbol .rBrace]) (.endOfInput 18 3)) ∧
    ¬ LeavesCommentOpen unclosedSource := by
  have faulty : Token.scan openComment = .error (.scan "unexpected character" "/*é\n" ⟨1, 6, 1⟩) := by
    decide +kernel
  have failed : parseSource {} unclosedSource =
      .error (.grammar (.unexpected [.symbol .rBrace]) (.endOfInput 18 3)) := by decide +kernel
  refine ⟨faulty, (report_one_line {} openComment _ (.inl faulty)).mp (by decide +kernel), failed, ?_⟩
  rw [← report_one_line {} unclosedSource _ (.inr failed)]
  decide +kernel

theorem newline_mem_report_openComment :
    Token.scan "/*\n" = .error (.scan "unexpected character" "/*\n" ⟨0, 3, 1⟩) ∧
    (Diagnostic.scan "unexpected character" "/*\n" ⟨0, 3, 1⟩).report =
      "[line 1] Error at '/*\n': unexpected character" ∧
    '\n' ∈ (Diagnostic.scan "unexpected character" "/*\n" ⟨0, 3, 1⟩).report.toList := by
  decide +kernel

end Jack
