import Jack.Proofs.Parse.Locality
import Jack.Proofs.Parse.NestingLimit

/-!
# The token that is reported is the first one that is wrong

A source that breaks the grammar at a token does so whatever comes after this token: no source that begins
in the same way, up to and including the token, begins with a class.
-/

namespace Jack

/-- How many of the tokens at the start of a source a visit has read. -/
def Visit.readOf (tokens : List Token) (v : Visit) : Nat := tokens.length - v.cursor.unread.length

variable {limit endOffset endLine : Nat} {tokens : List Token} {violation : Violation} {found : Token}

theorem parseClass_failed (failed : (parseClass limit (.ofTokens tokens endOffset endLine)).result =
      .error (.grammar violation found)) :
    ∃ read rest, tokens = read ++ rest ∧ found = rest.headD (.endOfInput endOffset endLine) ∧
      (parseClass limit (.ofTokens tokens endOffset endLine)).cursor.unread = rest ∧
      (parseClass limit (.ofTokens tokens endOffset endLine)).readOf tokens = read.length := by
  have sound := Rule.class.visit_sound limit limit {} _ (Cursor.closed_atStart tokens endOffset endLine)
  obtain ⟨_, same⟩ := sound.found _ (Visit.result_eq_error_iff.mp failed)
  obtain ⟨read, passes⟩ := sound.passes
  rw [Visit.cursor_toOutcome] at same passes
  have split : tokens = read ++ (parseClass limit (.ofTokens tokens endOffset endLine)).cursor.unread :=
    passes.unread
  refine ⟨read, _, split, ?_, rfl, ?_⟩
  · cases same
    rw [Cursor.peek_eq, passes.endToken]
    rfl
  · have length := congrArg List.length split
    rw [List.length_append] at length
    rw [Visit.readOf]
    omega

theorem parseClass_error {d : Diagnostic}
    (failed : (parseClass limit (.ofTokens tokens endOffset endLine)).result = .error d) :
    ∃ violation found, d = .grammar violation found := by
  obtain ⟨violation, same⟩ := (Rule.class.visit_sound limit limit {} _
    (Cursor.closed_atStart tokens endOffset endLine)).found d (Visit.result_eq_error_iff.mp failed)
  exact ⟨violation, _, same⟩

theorem not_yields_of_failed (failed : (parseClass limit (.ofTokens tokens endOffset endLine)).result =
      .error (.grammar violation found)) (grammatical : ∀ n, violation ≠ .tooDeep n)
    {front : List Token} (starts : front <+: tokens) : ¬ Rule.class.Yields front := by
  rintro ⟨tree, derives, rfl⟩
  have parsed := parseClass_of_derives endOffset endLine derives starts (Nat.le_max_right limit tree.depth)
  have shallow : ∀ n found, (parseClass limit (.ofTokens tokens endOffset endLine)).result ≠
      .error (.grammar (.tooDeep n) found) := by
    intro n found deep
    rw [failed] at deep
    cases deep
    exact grammatical n rfl
  rw [parseClass_mono (Nat.le_max_left limit tree.depth) shallow, failed] at parsed
  cases parsed

theorem parseClass_alike {read rest : List Token} (other : List Token) (endOffset' endLine' : Nat)
    (unread : (parseClass limit (.ofTokens (read ++ found :: rest) endOffset endLine)).cursor.unread =
      found :: rest) :
    ((parseClass limit (.ofTokens (read ++ found :: rest) endOffset endLine)).toOutcome {}).Alike
      (found :: rest) (found :: other)
      ((parseClass limit (.ofTokens (read ++ found :: other) endOffset' endLine')).toOutcome {}) := by
  have alike : (Cursor.atStart (.ofTokens (read ++ found :: rest) endOffset endLine)).Alike
      (found :: rest) (found :: other)
      (Cursor.atStart (.ofTokens (read ++ found :: other) endOffset' endLine')) :=
    ⟨⟨read, rfl, rfl⟩, rfl⟩
  have within : found :: rest <:+ ((Rule.class.visit limit limit (Cursor.atStart
      (.ofTokens (read ++ found :: rest) endOffset endLine))).toOutcome {}).cursor.unread := by
    rw [Visit.cursor_toOutcome]
    exact ⟨[], unread.symm⟩
  exact Rule.visit_alike limit limit .class _ _ _ _ _ (Cursor.closed_atStart _ _ _) alike within

theorem failed_of_same_start {read rest : List Token}
    (failed : (parseClass limit (.ofTokens (read ++ found :: rest) endOffset endLine)).result =
      .error (.grammar violation found))
    (unread : (parseClass limit (.ofTokens (read ++ found :: rest) endOffset endLine)).cursor.unread =
      found :: rest) (other : List Token) :
    (parseClass limit (.ofTokens (read ++ found :: other) endOffset endLine)).result =
      .error (.grammar violation found) := by
  rw [Visit.result_eq_error_iff] at failed ⊢
  exact (parseClass_alike other endOffset endLine unread).failure.trans failed

theorem parseClass_firstError (tokens : List Token) (endOffset endLine limit : Nat) (violation : Violation)
    (found : Token) (grammatical : ∀ n, violation ≠ .tooDeep n)
    (failed : (parseClass limit (.ofTokens tokens endOffset endLine)).result =
      .error (.grammar violation found)) :
    let read := (parseClass limit (.ofTokens tokens endOffset endLine)).readOf tokens
    (tokens[read]? = some found ∧ ∀ source, tokens.take (read + 1) <+: source →
      ∀ front, front <+: source → ¬ Rule.class.Yields front) ∨
    (read = tokens.length ∧ found = .endOfInput endOffset endLine ∧
      ∀ front, front <+: tokens → ¬ Rule.class.Yields front) := by
  obtain ⟨read, rest, rfl, same, unread, count⟩ := parseClass_failed failed
  rw [count]
  cases rest with
  | nil =>
      refine Or.inr ⟨by simp, same, ?_⟩
      intro front starts
      exact not_yields_of_failed failed grammatical starts
  | cons token rest =>
      cases same
      refine Or.inl ⟨by simp, ?_⟩
      rintro source ⟨other, rfl⟩ front starts
      have failed' := failed_of_same_start failed unread other
      have begin : (read ++ token :: rest).take (read.length + 1) = read ++ [token] := by
        rw [List.take_length_add_append, List.take_succ_cons, List.take_zero]
      rw [begin, List.append_assoc] at starts
      exact not_yields_of_failed failed' grammatical starts

/-- `class A { function void f() { return x x; } }`, which breaks the grammar at the second `x`. -/
def strayNameSource : List Token :=
  negationSource.take 10 ++ .bare .ident :: negationSource.drop 11

theorem parseClass_firstError_strayName :
    strayNameSource[11]? = some (.bare .ident) ∧
      ∀ source, strayNameSource.take 12 <+: source → ∀ front, front <+: source →
        ¬ Rule.class.Yields front := by
  have failed : (parseClass 8 (.ofTokens strayNameSource 0 1)).result =
      .error (.grammar (.unexpected [.symbol .semicolon]) (.bare .ident)) :=
    Visit.result_eq_error_iff.mpr (by decide +kernel)
  have count : (parseClass 8 (.ofTokens strayNameSource 0 1)).readOf strayNameSource = 11 := by
    decide +kernel
  have first := parseClass_firstError strayNameSource 0 1 8 _ _ (by simp) failed
  rw [count] at first
  rcases first with wrong | ⟨atEnd, _⟩
  · exact wrong
  · cases atEnd

end Jack
