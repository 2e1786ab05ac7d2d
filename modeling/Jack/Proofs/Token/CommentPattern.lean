import Jack.Proofs.Token.Pieces
import Mathlib.Computability.Language

/-!
# Comments as a pattern

The comments that begin with `/*` are those of a pattern. Its texts are the ones that end with the first `*/`
behind the opening characters, so it never leaves a choice where to stop, and scanning cuts off what it says.
-/

namespace Jack

open Computability

namespace Pattern

/-- The texts of one character that has the property. -/
def one (property : Char → Prop) : Language Char := {text | ∃ c, property c ∧ text = [c]}

def slash : Language Char := one (· = '/')

def star : Language Char := one (· = '*')

def nonStar : Language Char := one (· ≠ '*')

/-- A character that neither closes a comment behind a star nor is a star itself. -/
def ordinary : Language Char := one fun c => c ≠ '/' ∧ c ≠ '*'

def stars : Language Char := star * star∗

/-- The pattern `/\*[^*]*\*+([^/*][^*]*\*+)*/`, part by part. -/
def comment : Language Char :=
  slash * star * nonStar∗ * stars * (ordinary * nonStar∗ * stars)∗ * slash

/-! ## Reading a pattern from left to right -/

theorem cons_mem_one_iff {property : Char → Prop} {c : Char} {text : List Char} :
    c :: text ∈ one property ↔ property c ∧ text = [] := by
  constructor
  · rintro ⟨d, holds, same⟩
    obtain ⟨rfl, rfl⟩ := List.cons.inj same
    exact ⟨holds, rfl⟩
  · rintro ⟨holds, rfl⟩
    exact ⟨c, holds, rfl⟩

theorem cons_mem_one_mul_iff {property : Char → Prop} {language : Language Char} {c : Char}
    {text : List Char} : c :: text ∈ one property * language ↔ property c ∧ text ∈ language := by
  rw [Language.mem_mul]
  constructor
  · rintro ⟨_, ⟨d, holds, rfl⟩, rest, member, same⟩
    obtain ⟨rfl, rfl⟩ := List.cons.inj same
    exact ⟨holds, member⟩
  · rintro ⟨holds, member⟩
    exact ⟨[c], ⟨c, holds, rfl⟩, text, member, rfl⟩

theorem nil_not_mem_one (property : Char → Prop) : [] ∉ one property := by
  rintro ⟨c, _, same⟩
  cases same

theorem nil_not_mem_one_mul (property : Char → Prop) (language : Language Char) :
    [] ∉ one property * language := by
  rw [Language.mem_mul]
  rintro ⟨_, ⟨c, _, rfl⟩, rest, _, same⟩
  cases same

theorem kstar_mul_eq (repeated last : Language Char) :
    repeated∗ * last = last + repeated * (repeated∗ * last) := by
  calc repeated∗ * last
      = (1 + repeated * repeated∗) * last := by rw [Language.one_add_self_mul_kstar_eq_kstar]
    _ = last + repeated * (repeated∗ * last) := by rw [add_mul, one_mul, mul_assoc]

/-! ## The two states of a comment

Behind the opening characters, a comment is either behind a star or not; only behind a star can the next
character close it. -/

/-- What may still come behind a star. -/
def behindStar : Language Char := star∗ * ((ordinary * nonStar∗ * stars)∗ * slash)

/-- What may still come where no star stands right before. -/
def interior : Language Char := nonStar∗ * (star * behindStar)

theorem comment_eq : comment = slash * (star * interior) := by
  simp only [comment, interior, behindStar, stars, mul_assoc]

theorem interior_eq : interior = star * behindStar + nonStar * interior := kstar_mul_eq nonStar _

theorem behindStar_eq : behindStar = slash + ordinary * interior + star * behindStar := by
  have round : (ordinary * nonStar∗ * stars)∗ * slash = slash + ordinary * interior := by
    rw [kstar_mul_eq]
    simp only [interior, behindStar, stars, mul_assoc]
  calc behindStar
      = (ordinary * nonStar∗ * stars)∗ * slash + star * behindStar := kstar_mul_eq star _
    _ = slash + ordinary * interior + star * behindStar := by rw [round]

theorem mem_interior_iff {text : List Char} :
    text ∈ interior ↔ text ∈ star * behindStar ∨ text ∈ nonStar * interior := by
  rw [← Language.mem_add, ← interior_eq]

theorem mem_behindStar_iff {text : List Char} :
    text ∈ behindStar ↔ (text ∈ slash ∨ text ∈ ordinary * interior) ∨ text ∈ star * behindStar := by
  rw [← Language.mem_add, ← Language.mem_add, ← behindStar_eq]

theorem nil_not_mem_interior : [] ∉ interior := by
  rw [mem_interior_iff, not_or]
  exact ⟨nil_not_mem_one_mul _ _, nil_not_mem_one_mul _ _⟩

theorem nil_not_mem_behindStar : [] ∉ behindStar := by
  rw [mem_behindStar_iff, not_or, not_or]
  exact ⟨⟨nil_not_mem_one _, nil_not_mem_one_mul _ _⟩, nil_not_mem_one_mul _ _⟩

section

variable {c : Char} {text : List Char}

theorem cons_mem_interior_iff :
    c :: text ∈ interior ↔ c = '*' ∧ text ∈ behindStar ∨ c ≠ '*' ∧ text ∈ interior := by
  rw [mem_interior_iff, star, nonStar, cons_mem_one_mul_iff, cons_mem_one_mul_iff]

theorem cons_mem_behindStar_iff :
    c :: text ∈ behindStar ↔
      (c = '/' ∧ text = [] ∨ (c ≠ '/' ∧ c ≠ '*') ∧ text ∈ interior) ∨ c = '*' ∧ text ∈ behindStar := by
  rw [mem_behindStar_iff, slash, ordinary, star, cons_mem_one_iff, cons_mem_one_mul_iff,
    cons_mem_one_mul_iff]

end

theorem mem_comment_iff_interior {text : List Char} :
    text ∈ comment ↔ ∃ rest ∈ interior, text = '/' :: '*' :: rest := by
  rw [comment_eq]
  constructor
  · rintro ⟨_, ⟨_, rfl, rfl⟩, _, ⟨_, ⟨_, rfl, rfl⟩, rest, inside, rfl⟩, rfl⟩
    exact ⟨rest, inside, rfl⟩
  · rintro ⟨rest, inside, rfl⟩
    exact cons_mem_one_mul_iff.mpr ⟨rfl, cons_mem_one_mul_iff.mpr ⟨rfl, inside⟩⟩

end Pattern

/-! ## Closing at the end -/

theorem commentInterior_iff_first {body : List Char} :
    CommentInterior body ↔
      ∀ front, front <+: body ++ ['*', '/'] → ['*', '/'] <:+ front → front = body ++ ['*', '/'] := by
  have whole : body ++ ['*', '/'] = body ++ ['*'] ++ ['/'] := by simp
  rw [CommentInterior, List.infix_iff_suffix_prefix, whole]
  constructor
  · intro early front inside closes
    rcases List.prefix_concat_iff.mp inside with same | shorter
    · exact same
    · exact absurd ⟨front, closes, shorter⟩ early
  · rintro first ⟨front, closes, inside⟩
    have same := first front (inside.trans (List.prefix_append _ _)) closes
    have bound := inside.length_le
    simp [same] at bound

/-- The text ends with its first `*/`. -/
def ClosesAtEnd (text : List Char) : Prop := Piece.splitComment text = some (text, [])

theorem closesAtEnd_iff {text : List Char} :
    ClosesAtEnd text ↔ ∃ body, CommentInterior body ∧ text = body ++ ['*', '/'] := by
  constructor
  · intro closes
    obtain ⟨body, same, inside, -⟩ := Piece.exists_comment closes
    exact ⟨body, inside, same⟩
  · rintro ⟨body, inside, rfl⟩
    exact Piece.splitComment_append inside []

theorem not_closesAtEnd_nil : ¬ ClosesAtEnd [] := by simp [ClosesAtEnd, Piece.splitComment]

theorem closesAtEnd_star_slash {text : List Char} : ClosesAtEnd ('*' :: '/' :: text) ↔ text = [] := by
  simp [ClosesAtEnd, Piece.splitComment]

theorem closesAtEnd_cons {c : Char} {text : List Char} (goesOn : c = '*' → text.head? ≠ some '/') :
    ClosesAtEnd (c :: text) ↔ ClosesAtEnd text := by
  have apart : ∀ after, c = '*' → text = '/' :: after → False := by
    rintro after rfl rfl
    exact goesOn rfl rfl
  rw [ClosesAtEnd, ClosesAtEnd, Piece.splitComment.eq_2 c text apart, Option.map_eq_some_iff]
  simp

namespace Pattern

-- Both states at once, since each hands over to the other at a star and behind one.
theorem mem_iff_closesAtEnd (text : List Char) :
    (text ∈ interior ↔ ClosesAtEnd text) ∧ (text ∈ behindStar ↔ ClosesAtEnd ('*' :: text)) := by
  induction text with
  | nil =>
      have alone : ¬ ClosesAtEnd ['*'] := by
        rw [closesAtEnd_cons (by simp)]
        exact not_closesAtEnd_nil
      exact ⟨iff_of_false nil_not_mem_interior not_closesAtEnd_nil, iff_of_false nil_not_mem_behindStar alone⟩
  | cons c text ih =>
      obtain ⟨inside, behind⟩ := ih
      rw [cons_mem_interior_iff, cons_mem_behindStar_iff, inside, behind]
      by_cases starred : c = '*'
      · subst starred
        have goesOn : ClosesAtEnd ('*' :: '*' :: text) ↔ ClosesAtEnd ('*' :: text) := closesAtEnd_cons (by simp)
        simp [goesOn]
      have skip : ClosesAtEnd (c :: text) ↔ ClosesAtEnd text :=
        closesAtEnd_cons fun same => absurd same starred
      by_cases slashed : c = '/'
      · subst slashed
        simp [skip, closesAtEnd_star_slash]
      · have goesOn : ClosesAtEnd ('*' :: c :: text) ↔ ClosesAtEnd (c :: text) :=
          closesAtEnd_cons (by simpa using slashed)
        simp [starred, slashed, skip, goesOn]

theorem mem_comment_iff {text : List Char} :
    text ∈ comment ↔ ∃ body, CommentInterior body ∧ text = '/' :: '*' :: body ++ ['*', '/'] := by
  rw [mem_comment_iff_interior]
  constructor
  · rintro ⟨rest, inside, rfl⟩
    obtain ⟨body, closes, rfl⟩ := closesAtEnd_iff.mp ((mem_iff_closesAtEnd rest).1.mp inside)
    exact ⟨body, closes, rfl⟩
  · rintro ⟨body, closes, rfl⟩
    exact ⟨body ++ ['*', '/'], (mem_iff_closesAtEnd _).1.mpr (closesAtEnd_iff.mpr ⟨body, closes, rfl⟩), rfl⟩

theorem opened_mem_comment_iff {rest : List Char} :
    '/' :: '*' :: rest ∈ comment ↔
      ['*', '/'] <:+ rest ∧ ∀ front, front <+: rest → ['*', '/'] <:+ front → front = rest := by
  rw [mem_comment_iff]
  constructor
  · rintro ⟨body, closes, same⟩
    obtain rfl : rest = body ++ ['*', '/'] := by simpa using same
    exact ⟨List.suffix_append _ _, commentInterior_iff_first.mp closes⟩
  · rintro ⟨⟨body, rfl⟩, first⟩
    exact ⟨body, commentInterior_iff_first.mpr first, rfl⟩

/-- A slash right behind the opening characters does not close the comment with their star. -/
theorem slash_mem_comment_iff {rest : List Char} :
    '/' :: '*' :: '/' :: rest ∈ comment ↔ '/' :: '*' :: rest ∈ comment := by
  simp [mem_comment_iff_interior, cons_mem_interior_iff]

end Pattern

/-! ## Comments in a source -/

namespace Piece

theorem first_comment_cases (rest : List Char) :
    (∃ text ∈ Pattern.comment, ∃ after, first '/' ('*' :: rest) = ⟨.gap, text, after⟩) ∨
      first '/' ('*' :: rest) = ⟨.fault .unclosedComment, '/' :: '*' :: rest, []⟩ := by
  cases split : splitComment rest with
  | none => exact Or.inr (by simp [first_slash, slashed, split])
  | some both =>
      obtain ⟨body, after⟩ := both
      obtain ⟨inner, rfl, closes, rfl⟩ := exists_comment split
      exact Or.inl ⟨_, Pattern.mem_comment_iff.mpr ⟨inner, closes, rfl⟩, after, slashed_block closes after⟩

theorem first_eq_gap_iff {rest text after : List Char} :
    first '/' ('*' :: rest) = ⟨.gap, text, after⟩ ↔
      text ∈ Pattern.comment ∧ text ++ after = '/' :: '*' :: rest := by
  constructor
  · intro cut
    have whole := first_eq '/' ('*' :: rest)
    rw [cut] at whole
    rcases first_comment_cases rest with ⟨text', member, after', cut'⟩ | open'
    · cases cut.symm.trans cut'
      exact ⟨member, whole⟩
    · cases cut.symm.trans open'
  · rintro ⟨member, whole⟩
    obtain ⟨body, closes, rfl⟩ := Pattern.mem_comment_iff.mp member
    obtain rfl : body ++ '*' :: '/' :: after = rest := by simpa using whole
    exact slashed_block closes after

theorem first_eq_fault_iff {rest : List Char} :
    first '/' ('*' :: rest) = ⟨.fault .unclosedComment, '/' :: '*' :: rest, []⟩ ↔
      ∀ text ∈ Pattern.comment, ¬ text <+: '/' :: '*' :: rest := by
  constructor
  · rintro open' text member ⟨after, whole⟩
    cases open'.symm.trans (first_eq_gap_iff.mpr ⟨member, whole⟩)
  · intro none
    rcases first_comment_cases rest with ⟨text, member, after, cut⟩ | open'
    · exact absurd ⟨after, (first_eq_gap_iff.mp cut).2⟩ (none text member)
    · exact open'

end Piece

namespace Pattern

theorem comment_unique {source text text' : List Char} (member : text ∈ comment) (front : text <+: source)
    (member' : text' ∈ comment) (front' : text' <+: source) : text = text' := by
  obtain ⟨rest, -, rfl⟩ := mem_comment_iff_interior.mp member
  obtain ⟨after, rfl⟩ := front
  obtain ⟨after', whole⟩ := front'
  have cut : Piece.first '/' ('*' :: (rest ++ after)) = ⟨.gap, '/' :: '*' :: rest, after⟩ :=
    Piece.first_eq_gap_iff.mpr ⟨member, rfl⟩
  have cut' : Piece.first '/' ('*' :: (rest ++ after)) = ⟨.gap, text', after'⟩ :=
    Piece.first_eq_gap_iff.mpr ⟨member', whole⟩
  exact congrArg Piece.text (cut.symm.trans cut')

theorem comment_stops_at_first_close :
    (∀ text, text ∈ comment ↔
      ∃ body, text = ['/', '*'] ++ body ++ ['*', '/'] ∧ ¬ ['*', '/'] <:+: body ++ ['*']) ∧
    (∀ rest, '/' :: '*' :: rest ∈ comment ↔
      ['*', '/'] <:+ rest ∧ ∀ front, front <+: rest → ['*', '/'] <:+ front → front = rest) ∧
    (∀ source, {text | text <+: source ∧ text ∈ comment}.Subsingleton) ∧
    ['/', '*', '/'] ∉ comment ∧
    (∀ rest, '/' :: '*' :: '/' :: rest ∈ comment ↔ '/' :: '*' :: rest ∈ comment) ∧
    (∀ rest text after, Piece.first '/' ('*' :: rest) = ⟨.gap, text, after⟩ ↔
      text ∈ comment ∧ text ++ after = '/' :: '*' :: rest) ∧
    ∀ rest, Piece.first '/' ('*' :: rest) = ⟨.fault .unclosedComment, '/' :: '*' :: rest, []⟩ ↔
      ∀ text ∈ comment, ¬ text <+: '/' :: '*' :: rest := by
  refine ⟨?_, fun _ => opened_mem_comment_iff, ?_, ?_, fun _ => slash_mem_comment_iff,
    fun _ _ _ => Piece.first_eq_gap_iff, fun _ => Piece.first_eq_fault_iff⟩
  · intro text
    rw [mem_comment_iff]
    exact exists_congr fun body => and_comm
  · rintro source text ⟨front, member⟩ text' ⟨front', member'⟩
    exact comment_unique member front member' front'
  · rw [slash_mem_comment_iff, mem_comment_iff]
    rintro ⟨body, -, same⟩
    simp at same

/-- A slash at once, a star that closes nothing, and a run of stars before the end. -/
def starredComment : List Char := "/*/*é\n***/".toList

theorem comment_stops_at_first_close_starred :
    starredComment ∈ comment ∧ starredComment ++ ['*', '/'] ∉ comment ∧
      ∀ text ∈ comment, ¬ text <+: ['/', '*', '/'] := by
  obtain ⟨closes, -, unique, -, -, -, unclosed⟩ := comment_stops_at_first_close
  have member : starredComment ∈ comment :=
    (closes starredComment).mpr ⟨"/*é\n**".toList, by decide +kernel, by decide +kernel⟩
  refine ⟨member, ?_, (unclosed ['/']).mp (by decide +kernel)⟩
  intro longer
  have same := unique (starredComment ++ ['*', '/']) ⟨List.prefix_append _ _, member⟩ ⟨List.prefix_rfl, longer⟩
  simp at same

end Pattern

end Jack
