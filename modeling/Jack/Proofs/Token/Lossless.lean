import Jack.Proofs.Token.Pieces
import Mathlib.Data.String.Basic

/-!
# Scanning loses nothing

A source scans to some tokens if and only if it is laid out as these tokens with gaps around them. The span
of each token marks off its text, in bytes, on the boundaries of characters.
-/

namespace Jack

open Piece

namespace Token

/-! ## A piece at a time -/

theorem scanFrom_of_gap {c : Char} {more text rest : List Char} (cut : first c more = ⟨.gap, text, rest⟩)
    (place : Position) : scanFrom place (c :: more) = scanFrom (place.past text) rest := by
  rw [scanFrom, cut]

theorem scanFrom_of_token {c : Char} {more text rest : List Char} {kind : Kind}
    (cut : first c more = ⟨.token kind, text, rest⟩) (place : Position) :
    scanFrom place (c :: more) = (scanFrom (place.past text) rest).map
      (⟨kind, lexemeOf kind text, place.cover text⟩ :: ·) := by
  rw [scanFrom, cut]

-- A run of blanks is cut off at once, yet it is skipped as if each blank were a piece of its own.
theorem scanFrom_blank {c : Char} (blank : isBlank c = true) (place : Position) (text : List Char) :
    scanFrom place (c :: text) = scanFrom (place.past [c]) text := by
  obtain ⟨blanks, rest, rfl, inside, ends⟩ := exists_run isBlank text
  have cut : ∀ {d : Char} {others : List Char}, isBlank d = true → (∀ e ∈ others, isBlank e = true) →
      first d (others ++ rest) = ⟨.gap, d :: others, rest⟩ := by
    intro d others blank inside
    rw [first_of_isBlank blank, run_append inside ends]
    rfl
  rw [scanFrom_of_gap (cut blank inside)]
  cases blanks with
  | nil => rfl
  | cons d others =>
      obtain ⟨blank', inside'⟩ := List.forall_mem_cons.mp inside
      rw [List.cons_append, scanFrom_of_gap (cut blank' inside'), ← Position.past_append]
      rfl

theorem scanFrom_gap {gap after : List Char} (apart : Gap gap after) (place : Position) :
    scanFrom place (gap ++ after) = scanFrom (place.past gap) after := by
  induction apart generalizing place with
  | nothing after => rw [Position.past_nil, List.nil_append]
  | @blank c text after blank _ ih =>
      rw [List.cons_append, scanFrom_blank blank, ih, ← Position.past_append]
      rfl
  | @lineComment body text after inLine ends _ ih =>
      have cut := slashed_line inLine ends
      rw [List.append_assoc, List.cons_append, scanFrom_of_gap ((first_slash _).trans cut), ih,
        ← Position.past_append]
  | @blockComment body text after closes _ ih =>
      have cut := slashed_block closes (text ++ after)
      have whole : '/' :: '*' :: body ++ '*' :: '/' :: text =
          ('/' :: '*' :: body ++ ['*', '/']) ++ text := by simp
      rw [whole, List.append_assoc, Position.past_append, ← ih]
      simpa using scanFrom_of_gap ((first_slash _).trans cut) place

end Token

/-! ## Scanning and layout -/

namespace Layout

theorem scanFrom_eq {place : Position} {text : List Char} {tokens : List Token}
    (layout : Layout place text tokens) : Token.scanFrom place text = .ok tokens := by
  induction layout with
  | @done place text gap =>
      have skipped := Token.scanFrom_gap gap place
      rw [List.append_nil] at skipped
      rw [skipped, Token.scanFrom]
  | @token place gap lexeme text after kind tokens apart spelling complete _ ih =>
      obtain ⟨c, more, same, cut⟩ := first_of_spelling spelling complete
      rw [List.append_assoc, Token.scanFrom_gap apart, same, Token.scanFrom_of_token cut, ih,
        spelling.lexemeOf_text]
      rfl

theorem after_gap {place : Position} {front text : List Char} {tokens : List Token}
    (join : ∀ gap after, text = gap ++ after → Gap gap after → Gap (front ++ gap) after)
    (layout : Layout (place.past front) text tokens) : Layout place (front ++ text) tokens := by
  cases layout with
  | done gap => exact .done (join text [] (List.append_nil text).symm gap)
  | token apart spelling complete more =>
      have joined := Layout.token (join _ _ (List.append_assoc _ _ _) apart) spelling complete
        (by rw [Position.past_append]; exact more)
      rw [Position.past_append, List.append_assoc front, List.append_assoc front] at joined
      exact joined

end Layout

theorem Token.layout_of_scanFrom {place : Position} {text : List Char} {tokens : List Token}
    (scanned : scanFrom place text = .ok tokens) : Layout place text tokens := by
  fun_induction scanFrom place text generalizing tokens with
  | case1 place =>
      cases scanned
      exact .done (.nothing [])
  | case2 place c more piece role =>
      rename_i ih
      rw [← first_eq c more]
      exact (ih scanned).after_gap fun gap after same apart => gap_of_first role same apart
  | case3 place c more piece kind role =>
      rename_i ih
      obtain ⟨rest, scanned', rfl⟩ : ∃ rest, scanFrom (place.past piece.text) piece.rest = .ok rest ∧
          tokens = ⟨kind, lexemeOf kind piece.text, place.cover piece.text⟩ :: rest := by
        cases result : scanFrom (place.past piece.text) piece.rest with
        | error d => simp [result, Except.map] at scanned
        | ok rest =>
            rw [result] at scanned
            exact ⟨rest, rfl, (Except.ok.inj scanned).symm⟩
      obtain ⟨lexeme, spelling, complete⟩ := spelling_of_first role
      rw [← first_eq c more, spelling.lexemeOf_text]
      simpa using Layout.token (.nothing _) spelling complete (by simpa using ih scanned')
  | case4 => cases scanned

theorem Token.scanFrom_eq_ok_iff {place : Position} {text : List Char} {tokens : List Token} :
    scanFrom place text = .ok tokens ↔ Layout place text tokens :=
  ⟨layout_of_scanFrom, Layout.scanFrom_eq⟩

/-! ## Spans -/

theorem Layout.exists_split {place : Position} {source : List Char} {tokens : List Token}
    (layout : Layout place source tokens) {token : Token} (member : token ∈ tokens) :
    ∃ before text after, source = before ++ text ++ after ∧
      token.span = (place.past before).cover text ∧
      Spelling token.kind token.lexeme.toList text ∧ token.kind.Complete after := by
  induction layout with
  | done gap => cases member
  | @token place gap lexeme text after kind tokens apart spelling complete _ ih =>
      rcases List.mem_cons.mp member with rfl | later
      · exact ⟨gap, text, after, rfl, rfl, by simpa using spelling, complete⟩
      · obtain ⟨before, text', after', rfl, span, spelling', complete'⟩ := ih later
        refine ⟨gap ++ text ++ before, text', after', by simp, ?_, spelling', complete'⟩
        rw [span, Position.past_append, Position.past_append]

theorem byteLength_eq_utf8ByteSize (text : List Char) :
    byteLength text = (String.ofList text).utf8ByteSize := by
  rw [String.utf8ByteSize_ofList]
  induction text with
  | nil => rfl
  | cons c rest ih => rw [byteLength, ih, String.utf8Len_cons, Nat.add_comm]

theorem byteLength_toList (text : String) : byteLength text.toList = text.utf8ByteSize := by
  rw [byteLength_eq_utf8ByteSize, String.ofList_toList]

theorem cover_past_start (before text : List Char) :
    (Position.start.past before).cover text =
      ⟨(String.ofList before).utf8ByteSize, (String.ofList (before ++ text)).utf8ByteSize,
        1 + before.count '\n'⟩ := by
  simp [Position.cover, Position.past, Position.start, newlineCount, byteLength_eq_utf8ByteSize]

theorem extract_append (before text after : List Char) :
    String.Pos.Raw.extract (String.ofList (before ++ text ++ after))
      ⟨(String.ofList before).utf8ByteSize⟩ ⟨(String.ofList (before ++ text)).utf8ByteSize⟩ =
      String.ofList text := by
  rw [String.utf8ByteSize_ofList, String.utf8ByteSize_ofList, String.utf8Len_append]
  exact String.extract_of_valid before text after

namespace Token

/-- The token is the part `text` of the source, in bytes, and the longest one of its kind there. -/
structure StandsIn (source before text after : String) (token : Token) : Prop where
  split : source = before ++ text ++ after
  nonempty : text ≠ ""
  start : token.span.start = before.utf8ByteSize
  stop : token.span.stop = (before ++ text).utf8ByteSize
  slice : String.Pos.Raw.extract source ⟨token.span.start⟩ ⟨token.span.stop⟩ = text
  line : token.line = 1 + before.toList.count '\n'
  spelling : Spelling token.kind token.lexeme.toList text.toList
  complete : token.kind.Complete after.toList

theorem standsIn_of_split {token : Token} {before text after : List Char}
    (span : token.span = (Position.start.past before).cover text)
    (spelling : Spelling token.kind token.lexeme.toList text) (complete : token.kind.Complete after) :
    token.StandsIn (String.ofList (before ++ text ++ after)) (String.ofList before) (String.ofList text)
      (String.ofList after) where
  split := by rw [String.ofList_append, String.ofList_append]
  nonempty := by simpa using spelling.text_ne_nil
  start := by rw [span, cover_past_start]
  stop := by rw [span, cover_past_start, String.ofList_append]
  slice := by
    rw [span, cover_past_start]
    exact extract_append before text after
  line := by rw [line, span, cover_past_start, String.toList_ofList]
  spelling := by rwa [String.toList_ofList]
  complete := by rwa [String.toList_ofList]

theorem scan_lossless (source : String) (tokens : List Token) (scanned : scan source = .ok tokens) :
    Layout .start source.toList tokens ∧
    ∀ token ∈ tokens, token.kind ≠ .eof ∧ ∃ before text after, token.StandsIn source before text after := by
  have layout := scanFrom_eq_ok_iff.mp scanned
  refine ⟨layout, ?_⟩
  intro token member
  obtain ⟨before, text, after, same, span, spelling, complete⟩ := layout.exists_split member
  have stands := standsIn_of_split span spelling complete
  rw [← same, String.ofList_toList] at stands
  exact ⟨spelling.kind_ne_eof, _, _, _, stands⟩

/-- Quotes in a comment, comments in quotes, a keyword in a name, and characters of two bytes. -/
def mixedSource : String := "/* \"é\n**/ classy/007 \"//ü\"// */\n;"

def mixedString : Token := ⟨.strConst, "//ü", ⟨22, 28, 2⟩⟩

theorem scan_lossless_mixedSource :
    scan mixedSource = .ok [⟨.ident, "classy", ⟨11, 17, 2⟩⟩, ⟨.symbol .slash, "/", ⟨17, 18, 2⟩⟩,
      ⟨.intConst, "007", ⟨18, 21, 2⟩⟩, mixedString, ⟨.symbol .semicolon, ";", ⟨34, 35, 3⟩⟩] ∧
    mixedString.kind ≠ .eof ∧ ∃ before text after, mixedString.StandsIn mixedSource before text after := by
  have scanned : scan mixedSource = .ok [⟨.ident, "classy", ⟨11, 17, 2⟩⟩, ⟨.symbol .slash, "/", ⟨17, 18, 2⟩⟩,
      ⟨.intConst, "007", ⟨18, 21, 2⟩⟩, mixedString, ⟨.symbol .semicolon, ";", ⟨34, 35, 3⟩⟩] := by
    decide +kernel
  exact ⟨scanned, (scan_lossless mixedSource _ scanned).2 mixedString (by simp)⟩

end Token

end Jack
