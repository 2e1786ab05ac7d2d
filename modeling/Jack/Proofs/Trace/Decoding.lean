import Jack.Proofs.Text.Entities
import Jack.Proofs.Token.Pieces
import Jack.Trace
import Mathlib.Data.List.Basic

/-!
# Reading a trace back

The text of a trace determines its items, but for the places of the tokens and for what their categories
leave open. Every `<` in it begins a tag, since none is left in an escaped lexeme, and no rule has the name
of a category.
-/

namespace Jack

namespace Markup

/-! ## Tags -/

/-- Cuts a text in front of its tags, each of which loses its `<`. -/
def parts (text : List Char) : List (List Char) := (text.splitOn '<').tail

def tagName (part : List Char) : List Char := part.takeWhile (· != '>')

/-- What stands behind the tag of a part, without the blank on either side. -/
def content (part : List Char) : List Char := unescape ((part.dropWhile (· != '>')).drop 2).dropLast

theorem splitOn_flatMap {front : List Char} {pieces : List (List Char)} (plain : '<' ∉ front)
    (others : ∀ piece ∈ pieces, '<' ∉ piece) :
    (front ++ pieces.flatMap ('<' :: ·)).splitOn '<' = front :: pieces := by
  induction pieces generalizing front with
  | nil => simpa using List.splitOn_eq_singleton plain
  | cons piece pieces ih =>
      obtain ⟨here, later⟩ := List.forall_mem_cons.mp others
      rw [List.flatMap_cons, List.cons_append, List.splitOn_append_cons_self_of_not_mem plain, ih here later]

theorem parts_flatMap {pieces : List (List Char)} (plain : ∀ piece ∈ pieces, '<' ∉ piece) :
    parts (pieces.flatMap ('<' :: ·)) = pieces := by
  have cut := splitOn_flatMap List.not_mem_nil plain
  rw [List.nil_append] at cut
  rw [parts, cut, List.tail_cons]

section

variable {name : List Char} (inside : '>' ∉ name)
include inside

theorem tag_append (after : List Char) :
    tagName (name ++ '>' :: after) = name ∧ (name ++ '>' :: after).dropWhile (· != '>') = '>' :: after := by
  have others : ∀ c ∈ name, (c != '>') = true := by
    intro c member
    rw [bne_iff_ne]
    rintro rfl
    exact inside member
  exact ⟨Piece.takeWhile_append others (by simp), Piece.dropWhile_append others (by simp)⟩

theorem content_append (text : String) :
    content (name ++ '>' :: (' ' :: (escape text).toList ++ [' '])) = text.toList := by
  rw [content, (tag_append inside _).2]
  simpa using unescape_escape text

end

end Markup

/-! ## Names -/

theorem not_mem_of_isAlpha {name : List Char} (letters : ∀ c ∈ name, c.isAlpha = true) {c : Char}
    (other : c.isAlpha = false) : c ∉ name := by
  intro member
  rw [letters c member] at other
  cases other

theorem Rule.isAlpha_name (rule : Rule) : ∀ c ∈ rule.name.toList, c.isAlpha = true := by
  apply List.all_eq_true.mp
  cases rule <;> decide +kernel

theorem Kind.isAlpha_category (kind : Kind) : ∀ c ∈ kind.category.toList, c.isAlpha = true := by
  apply List.all_eq_true.mp
  cases kind <;> simp only [category] <;> decide +kernel

theorem Rule.ofName?_name (rule : Rule) : ofName? rule.name = some rule := by
  cases rule <;> decide +kernel

theorem Rule.ofName?_category (kind : Kind) : ofName? kind.category = none := by
  cases kind <;> simp only [Kind.category] <;> decide +kernel

/-! ## Marks -/

namespace Trace

inductive Mark where
  | opening (rule : Rule)
  | closing (rule : Rule)
  | token (category lexeme : String)
deriving DecidableEq, Repr

def Item.mark : Item → Mark
  | .opening rule => .opening rule
  | .closing rule => .closing rule
  | .token t => .token t.kind.category t.lexeme

def Mark.ofTag? : List Char → Option Mark
  | '/' :: name => (Rule.ofName? (String.ofList name)).map .closing
  | name => (Rule.ofName? (String.ofList name)).map .opening

/-- Reads marks from the parts of a text. A token takes up two parts, as it has two tags. -/
def marks : List (List Char) → Option (List Mark)
  | [] => some []
  | part :: more =>
      match Mark.ofTag? (Markup.tagName part) with
      | some mark => (marks more).map (mark :: ·)
      | none =>
          match more with
          | [] => none
          | _ :: rest =>
              (marks rest).map
                (.token (String.ofList (Markup.tagName part)) (String.ofList (Markup.content part)) :: ·)

/-- Reads a trace back from its text, whatever its line ending. -/
def decode (text : String) : Option (List Mark) := marks (Markup.parts text.toList)

def Item.parts (ending : LineEnding) : Item → List (List Char)
  | .opening rule => [rule.name.toList ++ '>' :: ending.text.toList]
  | .closing rule => ['/' :: rule.name.toList ++ '>' :: ending.text.toList]
  | .token t =>
      [t.kind.category.toList ++ '>' :: (' ' :: (Markup.escape t.lexeme).toList ++ [' ']),
        '/' :: t.kind.category.toList ++ '>' :: ending.text.toList]

theorem Item.markup_append (ending : LineEnding) (item : Item) :
    (item.markup ++ ending.text).toList = (item.parts ending).flatMap ('<' :: ·) := by
  cases item with
  | opening rule => simp [markup, parts, Markup.openTag]
  | closing rule => simp [markup, parts, Markup.closeTag]
  | token t => simp [markup, parts, Token.markup, Markup.element, Markup.openTag, Markup.closeTag]

theorem toList_render (ending : LineEnding) (items : List Item) :
    (render ending items).toList = (items.flatMap (Item.parts ending)).flatMap ('<' :: ·) := by
  rw [render, Markup.lines, String.toList_join, List.flatMap_map, List.flatMap_map, List.flatMap_assoc]
  exact List.flatMap_congr fun item _ => item.markup_append ending

theorem Item.lt_not_mem_parts (ending : LineEnding) (item : Item) :
    ∀ part ∈ item.parts ending, '<' ∉ part := by
  have plain : '<' ∉ ending.text.toList := by cases ending <;> decide +kernel
  cases item with
  | opening rule => simp [parts, plain, not_mem_of_isAlpha rule.isAlpha_name]
  | closing rule => simp [parts, plain, not_mem_of_isAlpha rule.isAlpha_name]
  | token t =>
      simp [parts, plain, not_mem_of_isAlpha t.kind.isAlpha_category, Markup.not_mem_escape]

theorem Mark.ofTag?_name {name : String} (letters : ∀ c ∈ name.toList, c.isAlpha = true) :
    ofTag? name.toList = (Rule.ofName? name).map .opening := by
  unfold ofTag?
  split
  · rename_i rest same
    exact absurd (by simp [same]) (not_mem_of_isAlpha letters (rfl : '/'.isAlpha = false))
  · rw [String.ofList_toList]

theorem marks_of_rule {part : List Char} {mark : Mark} (tag : Mark.ofTag? (Markup.tagName part) = some mark)
    (more : List (List Char)) : marks (part :: more) = (marks more).map (mark :: ·) := by
  rw [marks.eq_def]
  simp only [tag]

theorem marks_of_category {part : List Char} (tag : Mark.ofTag? (Markup.tagName part) = none)
    (last : List Char) (rest : List (List Char)) :
    marks (part :: last :: rest) = (marks rest).map
      (.token (String.ofList (Markup.tagName part)) (String.ofList (Markup.content part)) :: ·) := by
  rw [marks.eq_def]
  simp only [tag]

theorem marks_parts_append (ending : LineEnding) (item : Item) (rest : List (List Char)) :
    marks (item.parts ending ++ rest) = (marks rest).map (item.mark :: ·) := by
  cases item with
  | opening rule =>
      have inside : '>' ∉ rule.name.toList := not_mem_of_isAlpha rule.isAlpha_name rfl
      have tag := (Markup.tag_append inside ending.text.toList).1
      apply marks_of_rule
      rw [tag, Mark.ofTag?_name rule.isAlpha_name, rule.ofName?_name]
      rfl
  | closing rule =>
      have inside : '>' ∉ '/' :: rule.name.toList :=
        List.not_mem_cons_of_ne_of_not_mem (by decide) (not_mem_of_isAlpha rule.isAlpha_name rfl)
      have tag := (Markup.tag_append inside ending.text.toList).1
      apply marks_of_rule
      rw [tag, Mark.ofTag?, String.ofList_toList, rule.ofName?_name]
      rfl
  | token t =>
      have inside : '>' ∉ t.kind.category.toList := not_mem_of_isAlpha t.kind.isAlpha_category rfl
      have tag := (Markup.tag_append inside (' ' :: (Markup.escape t.lexeme).toList ++ [' '])).1
      have content := Markup.content_append inside t.lexeme
      rw [Item.parts, List.cons_append, List.singleton_append, marks_of_category, tag, content,
        String.ofList_toList, String.ofList_toList]
      · rfl
      · rw [tag, Mark.ofTag?_name t.kind.isAlpha_category, Rule.ofName?_category]
        rfl

theorem marks_flatMap_parts (ending : LineEnding) (items : List Item) :
    marks (items.flatMap (Item.parts ending)) = some (items.map Item.mark) := by
  induction items with
  | nil => rfl
  | cons item items ih => rw [List.flatMap_cons, marks_parts_append, ih, Option.map_some, List.map_cons]

theorem decode_render (ending : LineEnding) (items : List Item) :
    decode (render ending items) = some (items.map Item.mark) := by
  have plain : ∀ part ∈ items.flatMap (Item.parts ending), '<' ∉ part := by
    intro part member
    obtain ⟨item, -, inside⟩ := List.mem_flatMap.mp member
    exact item.lt_not_mem_parts ending part inside
  rw [decode, toList_render, Markup.parts_flatMap plain, marks_flatMap_parts]

end Trace

end Jack
