import Jack.Proofs.Diagnostic.Places
import Mathlib.Data.Nat.Count

/-!
# Looking up lines

A table of lines answers as if the line feeds before the offset were counted one by one: inside the text, at
its end and beyond it. It is the table that says on which lines the tokens of a text are.
-/

namespace Jack

theorem count_take_eq_count {α : Type} [DecidableEq α] (items : List α) (item : α) (n : Nat) :
    (items.take n).count item = Nat.count (fun place => items[place]? = some item) n := by
  induction n with
  | zero => simp
  | succ n ih =>
      rw [List.take_add_one, List.count_append, ih, Nat.count_succ]
      congr 1
      cases items[n]? with
      | none => simp
      | some other => simp [List.count_singleton]

/-- The number of places before the offset at which the text has a line feed. -/
theorem lineFeeds_eq_count (source : String) (offset : Nat) :
    lineFeeds source offset = Nat.count (fun place => source.toUTF8.data[place]? = some 10) offset := by
  rw [lineFeeds, count_take_eq_count]
  simp only [Array.getElem?_toList]

namespace LineTable

section

variable {source : String} (few : newlineCount source.toList < UInt32.size - 1)

include few

theorem lineOf_utf8ByteSize : (ofText source).lineOf source.utf8ByteSize = (ofText source).lineCount := by
  rw [lineOf_ofText few, lineFeeds_utf8ByteSize, lineCount_ofText]

theorem monotone_lineOf : Monotone (ofText source).lineOf := by
  intro earlier later le
  rw [lineOf_ofText few, lineOf_ofText few, lineFeeds_eq_count, lineFeeds_eq_count]
  exact Nat.add_le_add_left (Nat.count_monotone _ le) 1

theorem lineOf_le_lineCount (offset : Nat) : (ofText source).lineOf offset ≤ (ofText source).lineCount := by
  rw [lineOf_eq_indexOf few]
  exact indexOf_lt_lineCount source offset

end

theorem line_endToken {source : String} {stream : TokenStream}
    (scanned : TokenStream.ofSource source = .ok stream) :
    stream.endToken.line = (ofText source).lineCount := by
  rw [TokenStream.ofSource] at scanned
  cases tokens : Token.scan source with
  | error d =>
      rw [tokens] at scanned
      cases scanned
  | ok found =>
      rw [tokens] at scanned
      cases scanned
      rw [Token.endOf_eq, lineFeeds_utf8ByteSize, lineCount_ofText]
      rfl

theorem lookUp_counts (source : String) (few : newlineCount source.toList < UInt32.size - 1) :
    (∀ offset, (ofText source).lineOf offset =
      1 + Nat.count (fun place => source.toUTF8.data[place]? = some 10) offset) ∧
    (ofText source).starts.toList.Pairwise (· < ·) ∧ (ofText source).starts[0]? = some 0 ∧
    Monotone (ofText source).lineOf ∧
    (∀ offset, (ofText source).lineOf offset ≤ (ofText source).lineCount) ∧
    (∀ offset, (UInt32.ofNat ((ofText source).lineOf offset - 1) + 1).toNat = (ofText source).lineOf offset) ∧
    (UInt32.ofNat (ofText source).lineCount).toNat = (ofText source).lineCount ∧
    (ofText source).lineOf source.utf8ByteSize = (ofText source).lineCount ∧
    ∀ stream, TokenStream.ofSource source = .ok stream →
      stream.endToken.line = (ofText source).lineCount := by
  refine ⟨?_, pairwise_starts source, rfl, monotone_lineOf few, lineOf_le_lineCount few, ?_,
    UInt32.toNat_ofNat_of_lt (lineCount_lt_size few), lineOf_utf8ByteSize few,
    fun _ scanned => line_endToken scanned⟩
  · intro offset
    rw [lineOf_ofText few, lineFeeds_eq_count]
  · intro offset
    rw [lineOf_eq_indexOf few, Nat.add_sub_cancel, ← lineOf_eq_indexOf few]
    rfl

/-- Two line feeds in a row, the second one at the end of the text. -/
def blankLine : String := "é\n\n"

-- No offset is too large: what lies past the end is on the last line, which is empty here.
theorem lookUp_counts_blankLine :
    newlineCount blankLine.toList < UInt32.size - 1 ∧ (ofText blankLine).lineOf 3 = 2 ∧
    (ofText blankLine).lineOf 4 = 3 ∧ (ofText blankLine).lineOf 18446744073709551615 = 3 := by
  have few : newlineCount blankLine.toList < UInt32.size - 1 := by decide +kernel
  obtain ⟨counts, -, -, monotone, bound, -, -, last, -⟩ := lookUp_counts blankLine few
  have size : blankLine.utf8ByteSize = 4 := by decide +kernel
  have lines : (ofText blankLine).lineCount = 3 := by decide +kernel
  rw [size, lines] at last
  refine ⟨few, ?_, last, le_antisymm (lines ▸ bound _) (last ▸ monotone (by omega))⟩
  rw [counts]
  decide +kernel

end LineTable

/-! ## The lines of tokens

Scanning counts the lines as it goes along. They are the ones that the table of lines gives for the place at which
a token starts, an error is found, or the input ends. -/

theorem Token.lines_looked_up (source : String) (few : newlineCount source.toList < UInt32.size - 1) :
    (∀ tokens, scan source = .ok tokens → ∀ token ∈ tokens,
      token.line = (LineTable.ofText source).lineOf token.span.start) ∧
    (∀ d, scan source = .error d → d.line = (LineTable.ofText source).lineOf d.span.start) ∧
    (endOf source).line = (LineTable.ofText source).lineOf (endOf source).span.start := by
  refine ⟨?_, ?_, (within_endOf source).lookUp few⟩
  · intro tokens scanned token member
    exact (within_of_scan scanned member).1.lookUp few
  · intro d faulty
    exact (reports_of_scanFrom faulty).within.lookUp few

end Jack
