import Jack.Analysis
import Jack.Proofs.Parse.Exactness
import Jack.Proofs.Token.Writing
import Jack.Proofs.Trace.Decoding
import Jack.Proofs.Tree.Likeness

/-!
# What the text of a trace tells about a tree

Two trees have the same text if and only if they differ in the places of their tokens and, within a
category, in their kinds. The kinds of scanned tokens follow from their categories and lexemes.
-/

namespace Jack

/-! ## Trees -/

namespace Trace

def Mark.markup : Mark → String
  | .opening rule => Markup.openTag rule.name
  | .closing rule => Markup.closeTag rule.name
  | .token category lexeme => Markup.element category lexeme

theorem Item.markup_mark (item : Item) : item.mark.markup = item.markup := by cases item <;> rfl

theorem render_eq_iff {ending : LineEnding} {items others : List Item} :
    render ending items = render ending others ↔ items.map Item.mark = others.map Item.mark := by
  constructor
  · intro same
    have decoded := decode_render ending items
    rw [same, decode_render] at decoded
    exact (Option.some.inj decoded).symm
  · intro same
    have markup : ∀ list : List Item, list.map Item.markup = (list.map Item.mark).map Mark.markup := by
      intro list
      rw [List.map_map]
      exact List.map_congr_left fun item _ => item.markup_mark.symm
    rw [render, render, markup, markup, same]

end Trace

/-- The tokens are written in the same way. -/
def Token.Lookalike (s t : Token) : Prop := s.kind.category = t.kind.category ∧ s.lexeme = t.lexeme

open Trace

theorem Trace.Item.mark_eq_iff {item other : Item} :
    item.mark = other.mark ↔ item.Alike Token.Lookalike other := by
  cases item <;> cases other <;> simp [Item.mark, Item.Alike, Token.Lookalike]

theorem Node.render_eq_iff {ending : LineEnding} {a b : Node} :
    a.render ending = b.render ending ↔ a.Alike Token.Lookalike b := by
  rw [Node.render, Node.render, Trace.render_eq_iff, Node.alike_iff_trace, ← List.forall₂_eq_eq_eq,
    List.forall₂_map_left_iff, List.forall₂_map_right_iff]
  simp only [Item.mark_eq_iff]

/-! ## Sources -/

theorem Spelling.kind_unique {kind other : Kind} {lexeme lexeme' text : List Char}
    (spelling : Spelling kind lexeme text) (spelling' : Spelling other lexeme' text) : kind = other := by
  -- Either kind is the one that is scanned when nothing follows the text.
  obtain ⟨c, more, split, cut⟩ := Piece.first_of_spelling spelling kind.complete_nil
  obtain ⟨c', more', split', cut'⟩ := Piece.first_of_spelling spelling' other.complete_nil
  obtain ⟨rfl, rfl⟩ := List.cons.inj (split.symm.trans split')
  rw [cut] at cut'
  simpa using cut'

theorem Word.written_congr {kind other : Kind} (same : kind.category = other.category) (lexeme : String) :
    (Word.mk kind lexeme).written = (Word.mk other lexeme).written := by
  cases kind <;> cases other <;> first | rfl | simp [Kind.category] at same

theorem Token.Lookalike.word_eq {s t : Token} (alike : s.Lookalike t) (scanned : s.word.WellFormed)
    (scanned' : t.word.WellFormed) : s.word = t.word := by
  obtain ⟨category, lexeme⟩ := alike
  have written : s.word.written = t.word.written := by
    rw [Token.word, Token.word, lexeme]
    exact Word.written_congr category t.lexeme
  rw [Word.WellFormed, written] at scanned
  have kind : s.kind = t.kind := scanned.kind_unique scanned'
  rw [Token.word, Token.word, kind, lexeme]

theorem parseSource_eq_ok {settings : Settings} {source : String} {parsed : Parsed}
    (success : parseSource settings source = .ok parsed) :
    ∃ tokens, Token.scan source = .ok tokens ∧ Rule.class.Derives parsed.tree ∧
      parsed.tree.tokens <+: tokens := by
  cases scanned : Token.scan source with
  | error d =>
      rw [parseSource_of_fault scanned] at success
      cases success
  | ok tokens =>
      rw [parseSource_of_scan scanned] at success
      cases result : (parseClass settings.maxDepth ⟨tokens, .endOf source⟩).result with
      | error d => simp [result, Except.map] at success
      | ok tree =>
          rw [result] at success
          cases success
          obtain ⟨derives, starts, _⟩ := derives_of_parseClass result
          exact ⟨tokens, rfl, derives, starts⟩

theorem wellFormed_of_parseSource {settings : Settings} {source : String} {parsed : Parsed}
    (success : parseSource settings source = .ok parsed) :
    ∀ token ∈ parsed.tree.tokens, token.word.WellFormed := by
  obtain ⟨tokens, scanned, _, starts⟩ := parseSource_eq_ok success
  intro token member
  exact Token.wellFormed_of_scan scanned _ (List.mem_map_of_mem (starts.subset member))

theorem Trace.markup_faithful :
    (∀ (ending : LineEnding) (items : List Item),
      decode (render ending items) = some (items.map Item.mark)) ∧
    (∀ (ending : LineEnding) (a b : Node),
      a.render ending = b.render ending ↔ a.Alike Token.Lookalike b) ∧
    ∀ (settings settings' : Settings) (source source' : String) (parsed parsed' : Parsed),
      settings.lineEnding = settings'.lineEnding →
      parseSource settings source = .ok parsed → parseSource settings' source' = .ok parsed' →
      analyze settings source = analyze settings' source' →
      parsed.tree.Alike (fun s t => s.word = t.word) parsed'.tree := by
  refine ⟨decode_render, fun ending a b => Node.render_eq_iff, ?_⟩
  intro settings settings' source source' parsed parsed' endings success success' same
  rw [analyze, analyze, success, success', endings] at same
  have alike := Node.render_eq_iff.mp (Except.ok.inj same)
  refine Node.Alike.imp ?_ alike
  intro s member t member' lookalike
  exact lookalike.word_eq (wellFormed_of_parseSource success s member)
    (wellFormed_of_parseSource success' t member')

def emptyClass (keyword name left right : Span) : Node :=
  .branch .class [.leaf ⟨.keyword .class, "class", keyword⟩, .leaf ⟨.ident, "A", name⟩,
    .leaf ⟨.symbol .lBrace, "\x7b", left⟩, .leaf ⟨.symbol .rBrace, "\x7d", right⟩]

def tightClass : Node := emptyClass ⟨0, 5, 1⟩ ⟨6, 7, 1⟩ ⟨7, 8, 1⟩ ⟨8, 9, 1⟩

def looseClass : Node := emptyClass ⟨0, 5, 1⟩ ⟨9, 10, 1⟩ ⟨11, 12, 2⟩ ⟨13, 14, 2⟩

theorem Trace.markup_faithful_emptyClass :
    parseSource ⟨.lf, 1, .xml⟩ "class A\x7b\x7d" = .ok ⟨tightClass, []⟩ ∧
    parseSource ⟨.lf, 2, .json⟩ "class/**/A\n\x7b \x7d;" = .ok ⟨looseClass, []⟩ ∧
    tightClass.Alike (fun s t => s.word = t.word) looseClass := by
  have tight : parseSource ⟨.lf, 1, .xml⟩ "class A\x7b\x7d" = .ok ⟨tightClass, []⟩ := by decide +kernel
  have loose : parseSource ⟨.lf, 2, .json⟩ "class/**/A\n\x7b \x7d;" = .ok ⟨looseClass, []⟩ := by
    decide +kernel
  have same : analyze ⟨.lf, 1, .xml⟩ "class A\x7b\x7d" =
      analyze ⟨.lf, 2, .json⟩ "class/**/A\n\x7b \x7d;" := by
    rw [analyze, analyze, tight, loose]
    rfl
  exact ⟨tight, loose, markup_faithful.2.2 ⟨.lf, 1, .xml⟩ ⟨.lf, 2, .json⟩ _ _ _ _ rfl tight loose same⟩

end Jack
