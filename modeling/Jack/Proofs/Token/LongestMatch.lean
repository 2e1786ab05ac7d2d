import Jack.Proofs.Token.CommentPattern
import Jack.Proofs.Token.Faults

/-!
# The longest match

Each kind of token has a pattern, and the gaps have three. The first piece of a text is the longest front of it that
matches a pattern, read as a keyword rather than as a name where it is both. A comment that is opened and not closed
is faulty, even though its slash alone would match.
-/

namespace Jack

open Computability

namespace Pattern

/-- The patterns `[ \t\r\n\f]+`, `//[^\n]*` and the one of comments. -/
def gap : Language Char :=
  one (isBlank · = true) * (one (isBlank · = true))∗ + slash * (slash * (one (· ≠ '\n'))∗) + comment

/-- The pattern of a kind. No text is the end of input. -/
def token : Kind → Language Char
  | .keyword word => {word.pattern.toList}
  | .symbol sign => one (· = sign.char)
  | .intConst => one (·.isDigit = true) * (one (·.isDigit = true))∗
  | .strConst => one (· = '"') * ((one fun c => c ≠ '"' ∧ c ≠ '\n')∗ * one (· = '"'))
  | .ident => one (isWordStart · = true) * (one (isWordChar · = true))∗
  | .eof => 0

def of : Option Kind → Language Char
  | some kind => token kind
  | none => gap

/-- What a text is that the pattern wins. Only an integer constant can still be refused. -/
def roleOf (text : List Char) : Option Kind → Role
  | none => .gap
  | some .intConst => Piece.integerRole text
  | some kind => .token kind

/-- The pattern has the longest match in front of the source. A name with that match gives way to a keyword. -/
structure Wins (source : List Char) (what : Option Kind) (text : List Char) : Prop where
  front : text <+: source
  matched : text ∈ of what
  longest : ∀ other, ∀ front ∈ of other, front <+: source → front.length ≤ text.length
  first : ∀ other, text ∈ of other → other = what ∨ other = some .ident ∧ ∃ word, what = some (.keyword word)

/-- The source opens a comment that is not closed. -/
def OpensUnclosed (source : List Char) : Prop :=
  ['/', '*'] <+: source ∧ ∀ text ∈ comment, ¬ text <+: source

def kindOf : Role → Option Kind
  | .gap => none
  | .token kind => some kind
  | .fault _ => some .intConst

theorem kindOf_roleOf (text : List Char) (what : Option Kind) : kindOf (roleOf text what) = what := by
  cases what with
  | none => rfl
  | some kind =>
      cases kind with
      | intConst =>
          rw [roleOf, Piece.integerRole]
          split <;> rfl
      | keyword _ | symbol _ | strConst | ident | eof => rfl

theorem cause_of_roleOf {text : List Char} {what : Option Kind} {cause : ScanFault}
    (role : roleOf text what = .fault cause) : cause = .integerTooLarge := by
  cases what with
  | none => cases role
  | some kind =>
      cases kind with
      | intConst =>
          rw [roleOf, Piece.integerRole] at role
          split at role
          · cases role
          · cases role
            rfl
      | keyword _ | symbol _ | strConst | ident | eof => cases role

/-! ## The texts of a pattern -/

inductive Match : Option Kind → List Char → Prop where
  | blanks {c : Char} {more : List Char} (blank : isBlank c = true) (inside : ∀ d ∈ more, isBlank d = true) :
      Match none (c :: more)
  | lineComment {body : List Char} (inLine : ∀ c ∈ body, c ≠ '\n') : Match none ('/' :: '/' :: body)
  | blockComment {text : List Char} (closed : text ∈ comment) : Match none text
  | keyword (word : Keyword) : Match (some (.keyword word)) word.text.toList
  | symbol (sign : Symbol) : Match (some (.symbol sign)) [sign.char]
  | integer {c : Char} {digits : List Char} (digit : c.isDigit = true) (inside : ∀ d ∈ digits, d.isDigit = true) :
      Match (some .intConst) (c :: digits)
  | string {body : List Char} (plain : ∀ c ∈ body, c ≠ '"' ∧ c ≠ '\n') : Match (some .strConst) ('"' :: body ++ ['"'])
  | name {c : Char} {letters : List Char} (start : isWordStart c = true)
      (inside : ∀ d ∈ letters, isWordChar d = true) : Match (some .ident) (c :: letters)

theorem mem_kstar_one_iff {property : Char → Prop} (text : List Char) :
    text ∈ (one property)∗ ↔ ∀ c ∈ text, property c := by
  have round := Language.one_add_self_mul_kstar_eq_kstar (one property)
  induction text with
  | nil =>
      rw [← round, Language.mem_add]
      simp [Language.mem_one]
  | cons c text ih =>
      have nonempty : c :: text ∉ (1 : Language Char) := by simp [Language.mem_one]
      rw [← round, Language.mem_add, or_iff_right nonempty, cons_mem_one_mul_iff, List.forall_mem_cons]
      exact and_congr_right' ih

theorem mem_run_iff {start inside : Char → Prop} {text : List Char} :
    text ∈ one start * (one inside)∗ ↔ ∃ c more, text = c :: more ∧ start c ∧ ∀ d ∈ more, inside d := by
  cases text with
  | nil => simp [nil_not_mem_one_mul]
  | cons c more => simp [cons_mem_one_mul_iff, mem_kstar_one_iff]

theorem mem_kstar_mul_one_iff {inside last : Char → Prop} {text : List Char} :
    text ∈ (one inside)∗ * one last ↔ ∃ body c, text = body ++ [c] ∧ (∀ d ∈ body, inside d) ∧ last c := by
  rw [Language.mem_mul]
  constructor
  · rintro ⟨body, member, _, ⟨c, holds, rfl⟩, rfl⟩
    exact ⟨body, c, rfl, (mem_kstar_one_iff body).mp member, holds⟩
  · rintro ⟨body, c, rfl, inside, holds⟩
    exact ⟨body, (mem_kstar_one_iff body).mpr inside, [c], ⟨c, holds, rfl⟩, rfl⟩

theorem mem_gap_iff {text : List Char} : text ∈ gap ↔ Match none text := by
  rw [gap, Language.mem_add, Language.mem_add]
  constructor
  · rintro ((blank | line) | block)
    · obtain ⟨c, more, rfl, blank, inside⟩ := mem_run_iff.mp blank
      exact .blanks blank inside
    · obtain ⟨_, ⟨_, rfl, rfl⟩, _, member, rfl⟩ := line
      obtain ⟨_, body, rfl, rfl, inLine⟩ := mem_run_iff.mp member
      exact .lineComment inLine
    · exact .blockComment block
  · intro matched
    cases matched with
    | blanks blank inside => exact Or.inl (Or.inl (mem_run_iff.mpr ⟨_, _, rfl, blank, inside⟩))
    | lineComment inLine =>
        exact Or.inl (Or.inr (cons_mem_one_mul_iff.mpr ⟨rfl, mem_run_iff.mpr ⟨_, _, rfl, rfl, inLine⟩⟩))
    | blockComment closed => exact Or.inr closed

theorem mem_token_iff {kind : Kind} {text : List Char} : text ∈ token kind ↔ Match (some kind) text := by
  constructor
  · intro member
    cases kind with
    | keyword word =>
        obtain rfl : text = word.pattern.toList := member
        rw [word.pattern_eq_text]
        exact .keyword word
    | symbol sign =>
        obtain ⟨c, rfl, rfl⟩ := member
        exact .symbol sign
    | intConst =>
        obtain ⟨c, digits, rfl, digit, inside⟩ := mem_run_iff.mp member
        exact .integer digit inside
    | strConst =>
        obtain ⟨_, ⟨c, rfl, rfl⟩, _, member, rfl⟩ := member
        obtain ⟨body, c, rfl, plain, rfl⟩ := mem_kstar_mul_one_iff.mp member
        exact .string plain
    | ident =>
        obtain ⟨c, letters, rfl, start, inside⟩ := mem_run_iff.mp member
        exact .name start inside
    | eof => cases member
  · intro matched
    cases matched with
    | keyword word => exact congrArg String.toList word.pattern_eq_text.symm
    | symbol sign => exact ⟨sign.char, rfl, rfl⟩
    | integer digit inside => exact mem_run_iff.mpr ⟨_, _, rfl, digit, inside⟩
    | string plain => exact cons_mem_one_mul_iff.mpr ⟨rfl, mem_kstar_mul_one_iff.mpr ⟨_, _, rfl, plain, rfl⟩⟩
    | name start inside => exact mem_run_iff.mpr ⟨_, _, rfl, start, inside⟩

theorem mem_of_iff {what : Option Kind} {text : List Char} : text ∈ of what ↔ Match what text := by
  cases what with
  | none => exact mem_gap_iff
  | some kind => exact mem_token_iff

end Pattern

/-! ## The first piece and the patterns -/

namespace Piece

open Pattern

theorem prefix_run {class? : Char → Bool} {inside : List Char} (all : ∀ c ∈ inside, class? c = true)
    (role : List Char → Role) (front after : List Char) :
    front ++ inside <+: (run role front class? (inside ++ after)).text := by
  rw [run, List.takeWhile_append_of_pos all, ← List.append_assoc]
  exact List.prefix_append _ _

theorem prefix_word {c : Char} {letters : List Char} (start : isWordStart c = true)
    (inside : ∀ d ∈ letters, isWordChar d = true) (after : List Char) :
    c :: letters <+: (first c (letters ++ after)).text := by
  rw [first_of_isWordStart start]
  exact prefix_run inside wordRole [c] after

theorem singleton_prefix_first (c : Char) (rest : List Char) : [c] <+: (first c rest).text := by
  obtain ⟨d, more, same⟩ := List.exists_cons_of_ne_nil (first_text_ne_nil c rest)
  have whole := first_eq c rest
  rw [same] at whole ⊢
  obtain rfl : d = c := (List.cons.inj whole).1
  exact List.prefix_append [d] more

theorem first_of_comment {text after rest : List Char} {c : Char} (closed : text ∈ comment)
    (whole : text ++ after = c :: rest) : first c rest = ⟨.gap, text, after⟩ := by
  obtain ⟨body, -, rfl⟩ := mem_comment_iff.mp closed
  obtain ⟨rfl, rfl⟩ := List.cons.inj whole
  exact first_eq_gap_iff.mpr ⟨closed, rfl⟩

theorem first_of_string {body after rest : List Char} {c : Char} (plain : ∀ d ∈ body, d ≠ '"' ∧ d ≠ '\n')
    (whole : '"' :: body ++ ['"'] ++ after = c :: rest) :
    first c rest = ⟨.token .strConst, '"' :: body ++ ['"'], after⟩ := by
  obtain ⟨rfl, rfl⟩ : '"' = c ∧ body ++ '"' :: after = rest := by simpa using whole
  rw [first_quote, quoted_append plain]

theorem prefix_first_of_match {what : Option Kind} {text after rest : List Char} {c : Char}
    (matched : Match what text) (whole : text ++ after = c :: rest) : text <+: (first c rest).text := by
  cases matched with
  | blanks blank inside =>
      cases whole
      rw [first_of_isBlank blank]
      exact prefix_run inside _ [_] after
  | lineComment inLine =>
      cases whole
      exact prefix_run (fun d member => bne_iff_ne.mpr (inLine d member)) (fun _ => .gap) ['/', '/'] after
  | blockComment closed =>
      rw [first_of_comment closed whole]
  | keyword word =>
      obtain ⟨d, letters, same, start, inside⟩ := exists_letters word
      rw [same] at whole ⊢
      cases whole
      exact prefix_word start inside after
  | symbol sign =>
      cases whole
      exact singleton_prefix_first sign.char after
  | integer digit inside =>
      cases whole
      rw [first_of_isDigit digit]
      exact prefix_run inside _ [_] after
  | string plain =>
      rw [first_of_string plain whole]
  | name start inside =>
      cases whole
      exact prefix_word start inside after

theorem role_of_word {c : Char} (start : isWordStart c = true) (rest : List Char) :
    (first c rest).role = wordRole (first c rest).text := by
  rw [first_of_isWordStart start]
  rfl

/-- The first piece has the role that any match in front says, longest or not, but for words and for the slash. -/
theorem role_first_of_match {what : Option Kind} {text after rest : List Char} {c : Char}
    (matched : Match what text) (whole : text ++ after = c :: rest) :
    (first c rest).role = roleOf (first c rest).text what ∨
      (what = some .ident ∨ ∃ word, what = some (.keyword word)) ∧ (first c rest).role = wordRole (first c rest).text ∨
      what = some (.symbol .slash) ∧ c = '/' := by
  cases matched with
  | blanks blank inside =>
      cases whole
      rw [first_of_isBlank blank]
      exact Or.inl rfl
  | lineComment inLine =>
      cases whole
      exact Or.inl rfl
  | blockComment closed =>
      rw [first_of_comment closed whole]
      exact Or.inl rfl
  | keyword word =>
      obtain ⟨d, letters, same, start, -⟩ := exists_letters word
      rw [same] at whole
      cases whole
      exact Or.inr (Or.inl ⟨Or.inr ⟨word, rfl⟩, role_of_word start _⟩)
  | symbol sign =>
      cases whole
      by_cases slash : sign = .slash
      · subst slash
        exact Or.inr (Or.inr ⟨rfl, rfl⟩)
      · rw [first_symbol slash]
        exact Or.inl rfl
  | integer digit inside =>
      cases whole
      rw [first_of_isDigit digit]
      exact Or.inl rfl
  | string plain =>
      rw [first_of_string plain whole]
      exact Or.inl rfl
  | name start inside =>
      cases whole
      exact Or.inr (Or.inl ⟨Or.inl rfl, role_of_word start _⟩)

theorem wordRole_cases (word : List Char) :
    wordRole word = .token .ident ∨
      ∃ keyword : Keyword, word = keyword.text.toList ∧ wordRole word = .token (.keyword keyword) := by
  by_cases free : ∀ keyword : Keyword, keyword.text.toList ≠ word
  · exact Or.inl (wordRole_of_free free)
  · obtain ⟨keyword, rfl⟩ := not_forall_not.mp free
    exact Or.inr ⟨keyword, rfl, wordRole_text keyword⟩

/-- A pattern that matches as much as the first piece says what the piece is; a keyword is also a name. -/
theorem role_of_match_text {what : Option Kind} {c : Char} {rest : List Char}
    (matched : Match what (first c rest).text) :
    (first c rest).role = roleOf (first c rest).text what ∨
      what = some .ident ∧ ∃ word : Keyword, (first c rest).role = .token (.keyword word) := by
  rcases role_first_of_match matched (first_eq c rest) with
    same | ⟨rfl | ⟨word, rfl⟩, isWord⟩ | ⟨rfl, rfl⟩
  · exact Or.inl same
  · rcases wordRole_cases (first c rest).text with name | ⟨keyword, -, known⟩
    · exact Or.inl (isWord.trans name)
    · exact Or.inr ⟨rfl, keyword, isWord.trans known⟩
  · generalize (first c rest).text = text at matched isWord
    cases matched
    exact Or.inl (isWord.trans (wordRole_text word))
  · left
    rcases slashed_cases rest with ⟨_, _, _, _, cut⟩ | ⟨_, _, _, cut⟩ | ⟨_, _, cut⟩ | ⟨_, cut⟩
    all_goals
      rw [first_slash, cut] at matched ⊢
      cases matched
    rfl

/-- Where something matches in front, a fault comes from a number or from a comment. -/
theorem cause_of_match {what : Option Kind} {text after rest : List Char} {c : Char} {cause : ScanFault}
    (matched : Match what text) (whole : text ++ after = c :: rest) (role : (first c rest).role = .fault cause) :
    cause = .integerTooLarge ∨ cause = .unclosedComment := by
  rcases role_first_of_match matched whole with same | ⟨-, isWord⟩ | ⟨-, rfl⟩
  · exact Or.inl (cause_of_roleOf (same.symm.trans role))
  · rcases wordRole_cases (first c rest).text with name | ⟨_, -, known⟩
    · cases role.symm.trans (isWord.trans name)
    · cases role.symm.trans (isWord.trans known)
  · obtain ⟨more, same⟩ := singleton_prefix_first '/' rest
    have slash : '/' ∈ (first '/' rest).text.head? := by
      rw [← same]
      rfl
    exact Or.inr ((flaw_of_first role).eq_causeOf '/' slash)

/-! ## What wins -/

theorem match_run {what : Option Kind} {class? : Char → Bool} {c : Char}
    (matched : ∀ inside : List Char, (∀ d ∈ inside, class? d = true) → Match what (c :: inside))
    (role : List Char → Role) (rest : List Char) : Match what (run role [c] class? rest).text :=
  matched (rest.takeWhile class?) (List.all_eq_true.mp List.all_takeWhile)

/-- The first piece matches a pattern and is what the pattern says, or it has one of the other three faults. -/
theorem match_or_fault (c : Char) (rest : List Char) :
    (∃ what, Match what (first c rest).text ∧ (first c rest).role = roleOf (first c rest).text what) ∨
      (c = '"' ∧ (first c rest).role = .fault .unterminatedString) ∨
      (c ≠ '"' ∧ (first c rest).role = .fault .strayCharacter) ∨
      OpensUnclosed (c :: rest) ∧ first c rest = ⟨.fault .unclosedComment, c :: rest, []⟩ := by
  rcases first_cases c rest with ⟨blank, cut⟩ | ⟨digit, cut⟩ | ⟨start, cut⟩ | ⟨rfl, cut⟩ | ⟨rfl, cut⟩ |
    ⟨sign, _, rfl, cut⟩ | ⟨_, _, quote, _, cut⟩
  · rw [cut]
    exact Or.inl ⟨none, match_run (fun _ inside => .blanks blank inside) _ rest, rfl⟩
  · rw [cut]
    exact Or.inl ⟨some .intConst, match_run (fun _ inside => .integer digit inside) _ rest, rfl⟩
  · left
    rw [role_of_word start]
    rcases wordRole_cases (first c rest).text with name | ⟨keyword, same, known⟩
    · refine ⟨some .ident, ?_, name⟩
      rw [cut]
      exact match_run (fun _ inside => .name start inside) _ rest
    · refine ⟨some (.keyword keyword), ?_, known⟩
      rw [same]
      exact .keyword keyword
  · rcases quoted_cases rest with ⟨body, after, plain, cut'⟩ | ⟨body, after, _, _, cut'⟩
    · rw [cut, cut']
      exact Or.inl ⟨some .strConst, .string plain, rfl⟩
    · rw [cut, cut']
      exact Or.inr (Or.inl ⟨rfl, rfl⟩)
  · rcases slashed_cases rest with ⟨body, after, inLine, _, cut'⟩ | ⟨body, after, closes, cut'⟩ |
      ⟨body, split, cut'⟩ | ⟨_, cut'⟩
    · rw [cut, cut']
      exact Or.inl ⟨none, .lineComment (by rintro _ member rfl; exact inLine member), rfl⟩
    · rw [cut, cut']
      exact Or.inl ⟨none, .blockComment (mem_comment_iff.mpr ⟨body, closes, rfl⟩), rfl⟩
    · have whole := first_eq '/' rest
      rw [cut, cut', List.append_nil] at whole
      obtain rfl : '*' :: body = rest := (List.cons.inj whole).2
      refine Or.inr (Or.inr (Or.inr ⟨⟨⟨body, rfl⟩, ?_⟩, cut.trans cut'⟩))
      exact first_eq_fault_iff.mp (cut.trans cut')
    · rw [cut, cut']
      exact Or.inl ⟨some (.symbol .slash), .symbol .slash, rfl⟩
  · rw [cut]
    exact Or.inl ⟨some (.symbol sign), .symbol sign, rfl⟩
  · exact Or.inr (Or.inr (Or.inl ⟨quote, by rw [cut]⟩))

theorem wins_first {what : Option Kind} {c : Char} {rest : List Char} (matched : Match what (first c rest).text)
    (role : (first c rest).role = roleOf (first c rest).text what) :
    Wins (c :: rest) what (first c rest).text where
  front := ⟨(first c rest).rest, first_eq c rest⟩
  matched := mem_of_iff.mpr matched
  longest := by
    rintro other text member ⟨after, whole⟩
    exact (prefix_first_of_match (mem_of_iff.mp member) whole).length_le
  first := by
    intro other member
    rcases role_of_match_text (mem_of_iff.mp member) with same | ⟨rfl, word, known⟩
    · left
      rw [← kindOf_roleOf (first c rest).text other, ← same, role, kindOf_roleOf]
    · refine Or.inr ⟨rfl, word, ?_⟩
      rw [← kindOf_roleOf (first c rest).text what, ← role, known]
      rfl

theorem wins_iff {what : Option Kind} {text rest : List Char} {c : Char} (closed : ¬ OpensUnclosed (c :: rest)) :
    Wins (c :: rest) what text ↔
      text = (first c rest).text ∧ Match what text ∧ (first c rest).role = roleOf text what := by
  constructor
  · intro wins
    obtain ⟨after, whole⟩ := wins.front
    have matched := mem_of_iff.mp wins.matched
    have inside := prefix_first_of_match matched whole
    rcases match_or_fault c rest with ⟨other, matched', role⟩ | ⟨-, role⟩ | ⟨-, role⟩ | ⟨opened, -⟩
    · have longest := wins.longest other _ (mem_of_iff.mpr matched') ⟨_, first_eq c rest⟩
      obtain rfl := inside.eq_of_length_le longest
      refine ⟨rfl, matched, ?_⟩
      rcases role_of_match_text matched with same | ⟨rfl, word, known⟩
      · exact same
      · -- The text is also that keyword, and a name does not come before it.
        obtain rfl : other = some (.keyword word) := by
          rw [← kindOf_roleOf (first c rest).text other, ← role, known]
          rfl
        rcases wins.first _ (mem_of_iff.mpr matched') with same | ⟨same, -⟩
        · cases same
        · cases same
    · rcases cause_of_match matched whole role with cause | cause <;> cases cause
    · rcases cause_of_match matched whole role with cause | cause <;> cases cause
    · exact absurd opened closed
  · rintro ⟨rfl, matched, role⟩
    exact wins_first matched role

theorem first_of_opensUnclosed {c : Char} {rest : List Char} (opened : OpensUnclosed (c :: rest)) :
    first c rest = ⟨.fault .unclosedComment, c :: rest, []⟩ := by
  obtain ⟨⟨body, same⟩, unclosed⟩ := opened
  cases same
  exact first_eq_fault_iff.mpr unclosed

/-- The first piece is what wins. Where nothing wins, its first character tells the fault. -/
theorem first_longest_match (c : Char) (rest : List Char) :
    (OpensUnclosed (c :: rest) → first c rest = ⟨.fault .unclosedComment, c :: rest, []⟩) ∧
    (¬ OpensUnclosed (c :: rest) →
      (∀ what text, Wins (c :: rest) what text →
        (first c rest).text = text ∧ (first c rest).role = roleOf text what) ∧
      ((∀ what text, ¬ Wins (c :: rest) what text) →
        (∀ what, ∀ text ∈ of what, ¬ text <+: c :: rest) ∧
        (first c rest).role = .fault (if c = '"' then .unterminatedString else .strayCharacter))) := by
  refine ⟨first_of_opensUnclosed, fun closed => ⟨?_, ?_⟩⟩
  · intro what text wins
    obtain ⟨rfl, -, role⟩ := (wins_iff closed).mp wins
    exact ⟨rfl, role⟩
  · intro none
    have refused : (first c rest).role = .fault (if c = '"' then .unterminatedString else .strayCharacter) := by
      rcases match_or_fault c rest with ⟨what, matched, role⟩ | ⟨quote, role⟩ | ⟨quote, role⟩ | ⟨opened, -⟩
      · exact absurd (wins_first matched role) (none what _)
      · rw [role, if_pos quote]
      · rw [role, if_neg quote]
      · exact absurd opened closed
    refine ⟨?_, refused⟩
    rintro what text member ⟨after, whole⟩
    rcases cause_of_match (mem_of_iff.mp member) whole refused with cause | cause
    all_goals
      split at cause <;> cases cause

end Piece

end Jack
