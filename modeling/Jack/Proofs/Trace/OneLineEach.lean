import Jack.Proofs.Trace.Injectivity

/-!
# One item to a line

No token of a source contains a line feed, so each item of a trace or listing stands on a line of its own, and
the line ending makes no difference but at the ends of lines.
-/

namespace Jack

/-! ## Lines of markup -/

namespace Markup

/-- Puts a carriage return in front of every line feed. -/
def withReturns (text : String) : String :=
  String.ofList (text.toList.flatMap fun c => if c = '\n' then ['\r', '\n'] else [c])

theorem toList_lines (ending : LineEnding) (items : List String) :
    (lines ending items).toList = items.flatMap fun item => item.toList ++ ending.text.toList := by
  rw [lines, String.toList_join, List.flatMap_map]
  simp only [String.toList_append]

section

variable {items : List String} (plain : ∀ item ∈ items, '\n' ∉ item.toList)
include plain

theorem splitOn_lines : (lines .lf items).toList.splitOn '\n' = items.map String.toList ++ [[]] := by
  rw [toList_lines]
  induction items with
  | nil => rfl
  | cons item items ih =>
      obtain ⟨here, others⟩ := List.forall_mem_cons.mp plain
      rw [List.flatMap_cons, List.append_assoc, List.map_cons, List.cons_append, ← ih others]
      exact List.splitOn_append_cons_self_of_not_mem here _

theorem newlineCount_lines : newlineCount (lines .lf items).toList = items.length := by
  rw [toList_lines, newlineCount]
  induction items with
  | nil => rfl
  | cons item items ih =>
      obtain ⟨here, others⟩ := List.forall_mem_cons.mp plain
      rw [List.flatMap_cons, List.count_append, ih others, List.count_append, List.count_eq_zero.mpr here,
        List.length_cons, Nat.zero_add, Nat.add_comm]
      rfl

theorem lines_crlf : lines .crlf items = withReturns (lines .lf items) := by
  apply String.toList_injective
  rw [withReturns, String.toList_ofList, toList_lines, toList_lines, List.flatMap_assoc]
  apply List.flatMap_congr
  intro item member
  have kept : (item.toList.flatMap fun c => if c = '\n' then ['\r', '\n'] else [c]) = item.toList := by
    conv_rhs => rw [← List.flatMap_singleton' item.toList]
    apply List.flatMap_congr
    intro c inside
    apply if_neg
    rintro rfl
    exact plain item member inside
  rw [List.flatMap_append, kept]
  rfl

end

theorem newline_not_mem_entity {c : Char} (other : c ≠ '\n') : '\n' ∉ entity c := by
  rcases entity_cases c with rfl | rfl | rfl | rfl | ⟨-, self⟩
  · decide +kernel
  · decide +kernel
  · decide +kernel
  · decide +kernel
  · rw [self, List.mem_singleton]
    exact other.symm

theorem newline_not_mem_escape {text : String} (plain : '\n' ∉ text.toList) : '\n' ∉ (escape text).toList := by
  rw [escape, String.toList_ofList, List.mem_flatMap]
  rintro ⟨c, member, inside⟩
  have other : c ≠ '\n' := by
    rintro rfl
    exact plain member
  exact newline_not_mem_entity other inside

end Markup

/-! ## Tokens and rules -/

theorem Spelling.newline_not_mem {kind : Kind} {lexeme text : List Char} (spelling : Spelling kind lexeme text) :
    '\n' ∉ lexeme := by
  intro member
  cases spelling with
  | fixed known =>
      cases kind with
      | keyword word =>
          cases known
          cases word <;> revert member <;> decide +kernel
      | symbol sign =>
          cases known
          cases sign <;> revert member <;> decide +kernel
      | intConst | strConst | ident | eof => cases known
  | integer _ decimal _ => cases decimal '\n' member
  | string plain => exact (plain '\n' member).2 rfl
  | name start word _ =>
      rcases List.mem_cons.mp member with rfl | later
      · cases start
      · cases word '\n' later

theorem Token.newline_not_mem_markup {token : Token} (scanned : token.word.WellFormed) :
    '\n' ∉ token.markup.toList := by
  have category : '\n' ∉ token.kind.category.toList := not_mem_of_isAlpha token.kind.isAlpha_category rfl
  have lexeme : '\n' ∉ (Markup.escape token.lexeme).toList :=
    Markup.newline_not_mem_escape scanned.newline_not_mem
  simp [markup, Markup.element, Markup.openTag, Markup.closeTag, category, lexeme]

theorem Token.newline_not_mem_listing {tokens : List Token} (scanned : ∀ token ∈ tokens, token.word.WellFormed) :
    ∀ item ∈ Markup.openTag "tokens" :: tokens.map markup ++ [Markup.closeTag "tokens"], '\n' ∉ item.toList := by
  intro item member
  rw [List.cons_append, List.mem_cons, List.mem_append, List.mem_map, List.mem_singleton] at member
  rcases member with rfl | ⟨token, inside, rfl⟩ | rfl
  · decide +kernel
  · exact newline_not_mem_markup (scanned token inside)
  · decide +kernel

theorem Node.newline_not_mem_trace {tree : Node} (scanned : ∀ token ∈ tree.tokens, token.word.WellFormed) :
    ∀ item ∈ tree.trace.map Trace.Item.markup, '\n' ∉ item.toList := by
  intro item member
  obtain ⟨item, inside, rfl⟩ := List.mem_map.mp member
  cases item with
  | opening rule => simp [Trace.Item.markup, Markup.openTag, not_mem_of_isAlpha rule.isAlpha_name]
  | closing rule => simp [Trace.Item.markup, Markup.closeTag, not_mem_of_isAlpha rule.isAlpha_name]
  | token t =>
      apply Token.newline_not_mem_markup
      apply scanned
      rw [← tree.tokens_trace]
      exact List.mem_filterMap.mpr ⟨.token t, inside, rfl⟩

/-! ## Listings and traces of sources -/

theorem Token.listing_lines {tokens : List Token} (scanned : ∀ token ∈ tokens, token.word.WellFormed) :
    (listing .lf tokens).toList.splitOn '\n' =
      "<tokens>".toList :: tokens.map (·.markup.toList) ++ ["</tokens>".toList, []] := by
  rw [listing, Markup.splitOn_lines (newline_not_mem_listing scanned), List.map_append, List.map_cons,
    List.map_map, List.append_assoc]
  rfl

theorem Node.render_lines {tree : Node} (scanned : ∀ token ∈ tree.tokens, token.word.WellFormed) :
    (tree.render .lf).toList.splitOn '\n' = tree.trace.map (·.markup.toList) ++ [[]] := by
  rw [render, Trace.render, Markup.splitOn_lines (newline_not_mem_trace scanned), List.map_map]
  rfl

theorem analyze_of_parseSource {settings : Settings} {source : String} {parsed : Parsed}
    (success : parseSource settings source = .ok parsed) (ending : LineEnding) :
    analyze { settings with lineEnding := ending } source = .ok (parsed.tree.render ending) := by
  have same : parseSource { settings with lineEnding := ending } source = .ok parsed := success
  rw [analyze, same]
  rfl

theorem one_item_per_line :
    (∀ (source : String) (tokens : List Token), Token.scan source = .ok tokens →
      (Token.listing .lf tokens).toList.splitOn '\n' =
        "<tokens>".toList :: tokens.map (·.markup.toList) ++ ["</tokens>".toList, []] ∧
      newlineCount (Token.listing .lf tokens).toList = tokens.length + 2 ∧
      Token.listing .crlf tokens = Markup.withReturns (Token.listing .lf tokens)) ∧
    ∀ (settings : Settings) (source : String) (parsed : Parsed), parseSource settings source = .ok parsed →
      ∃ text, analyze { settings with lineEnding := .lf } source = .ok text ∧
        text.toList.splitOn '\n' = parsed.tree.trace.map (·.markup.toList) ++ [[]] ∧
        newlineCount text.toList = parsed.tree.trace.length ∧
        analyze { settings with lineEnding := .crlf } source = .ok (Markup.withReturns text) := by
  constructor
  · intro source tokens scanned
    have wellFormed : ∀ token ∈ tokens, token.word.WellFormed :=
      List.forall_mem_map.mp (Token.wellFormed_of_scan scanned)
    have plain := Token.newline_not_mem_listing wellFormed
    refine ⟨Token.listing_lines wellFormed, ?_, Markup.lines_crlf plain⟩
    rw [Token.listing, Markup.newlineCount_lines plain]
    simp
  · intro settings source parsed success
    have wellFormed := wellFormed_of_parseSource success
    have plain := Node.newline_not_mem_trace wellFormed
    refine ⟨parsed.tree.render .lf, analyze_of_parseSource success .lf, Node.render_lines wellFormed, ?_, ?_⟩
    · rw [Node.render, Trace.render, Markup.newlineCount_lines plain, List.length_map]
    · rw [analyze_of_parseSource success, Node.render, Trace.render, Markup.lines_crlf plain]
      rfl

theorem one_item_per_line_carriageReturn :
    Token.scan "\"\r<\"" = .ok [⟨.strConst, "\r<", ⟨0, 4, 1⟩⟩] ∧
    Token.listing .crlf [⟨.strConst, "\r<", ⟨0, 4, 1⟩⟩] =
      Markup.withReturns "<tokens>\n<stringConstant> \r&lt; </stringConstant>\n</tokens>\n" ∧
    parseSource {} "class A\x7b\x7d" = .ok ⟨tightClass, []⟩ ∧
    ∃ text, analyze ⟨.lf, 256, .xml⟩ "class A\x7b\x7d" = .ok text ∧ newlineCount text.toList = 6 ∧
      analyze ⟨.crlf, 256, .xml⟩ "class A\x7b\x7d" = .ok (Markup.withReturns text) := by
  have scanned : Token.scan "\"\r<\"" = .ok [⟨.strConst, "\r<", ⟨0, 4, 1⟩⟩] := by decide +kernel
  have parsed : parseSource {} "class A\x7b\x7d" = .ok ⟨tightClass, []⟩ := by decide +kernel
  have listing : Token.listing .lf [⟨.strConst, "\r<", ⟨0, 4, 1⟩⟩] =
      "<tokens>\n<stringConstant> \r&lt; </stringConstant>\n</tokens>\n" := by decide +kernel
  refine ⟨scanned, listing ▸ (one_item_per_line.1 _ _ scanned).2.2, parsed, ?_⟩
  obtain ⟨text, trace, -, count, returns⟩ := one_item_per_line.2 _ _ _ parsed
  exact ⟨text, trace, count, returns⟩

end Jack
