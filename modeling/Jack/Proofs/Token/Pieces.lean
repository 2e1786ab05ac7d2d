import Jack.Proofs.Token.Layout

/-!
# The pieces that a text is cut into

The first piece of a text is a gap or a token exactly where the layout of sources says so.
-/

namespace Jack

/-! ## Classes of characters -/

theorem isBlank_eq_true {c : Char} :
    isBlank c = true ↔ c = ' ' ∨ c = '\t' ∨ c = '\r' ∨ c = '\n' ∨ c = '\x0c' := by
  simp [isBlank, or_assoc]

theorem isBlank_of_isDigit {c : Char} (digit : c.isDigit = true) : isBlank c = false := by
  rw [Bool.eq_false_iff, ne_eq, isBlank_eq_true]
  rintro (rfl | rfl | rfl | rfl | rfl) <;> cases digit

theorem isBlank_of_isWordStart {c : Char} (start : isWordStart c = true) : isBlank c = false := by
  rw [Bool.eq_false_iff, ne_eq, isBlank_eq_true]
  rintro (rfl | rfl | rfl | rfl | rfl) <;> cases start

theorem isDigit_of_isWordStart {c : Char} (start : isWordStart c = true) : c.isDigit = false := by
  have letter : ((decide (c.val ≥ 'A'.val ∧ c.val ≤ 'Z'.val) ||
      (decide (c.val ≥ 'a'.val) && decide (c.val ≤ 'z'.val))) || c == '_') = true := start
  simp only [Bool.or_eq_true, Bool.and_eq_true, decide_eq_true_eq, beq_iff_eq, UInt32.le_iff_toNat_le,
    ge_iff_le] at letter
  simp only [Char.isDigit, Bool.and_eq_false_iff, decide_eq_false_iff_not, UInt32.le_iff_toNat_le,
    ge_iff_le]
  rcases letter with letter | rfl
  · have digits : '9'.val.toNat < 'A'.val.toNat ∧ '9'.val.toNat < 'a'.val.toNat := by decide
    omega
  · decide

theorem isWordChar_eq (c : Char) : isWordChar c = (isWordStart c || c.isDigit) :=
  Bool.or_right_comm c.isAlpha c.isDigit (c == '_')

theorem exists_letters (word : Keyword) :
    ∃ c letters, word.text.toList = c :: letters ∧ isWordStart c = true ∧
      ∀ d ∈ letters, isWordChar d = true := by
  have spelled : (word.text.toList.head?.any isWordStart && word.text.toList.all isWordChar) = true := by
    cases word <;> decide +kernel
  cases letters : word.text.toList with
  | nil => simp [letters] at spelled
  | cons c rest =>
      simp only [letters, List.head?_cons, Option.any_some, List.all_cons, Bool.and_eq_true,
        List.all_eq_true] at spelled
      exact ⟨c, rest, rfl, spelled.1, spelled.2.2⟩

namespace Piece

/-! ## Runs of a class -/

section

variable {class? : Char → Bool} {body rest : List Char} (inside : ∀ c ∈ body, class? c = true)
  (ends : ∀ c ∈ rest.head?, class? c = false)
include inside ends

theorem takeWhile_append : (body ++ rest).takeWhile class? = body := by
  rw [List.takeWhile_append_of_pos inside]
  cases rest with
  | nil => simp
  | cons c rest => simp [ends c rfl]

theorem dropWhile_append : (body ++ rest).dropWhile class? = rest := by
  rw [List.dropWhile_append_of_pos inside]
  cases rest with
  | nil => rfl
  | cons c rest => simp [ends c rfl]

theorem run_append (role : List Char → Role) (front : List Char) :
    run role front class? (body ++ rest) = ⟨role (front ++ body), front ++ body, rest⟩ := by
  rw [run, takeWhile_append inside ends, dropWhile_append inside ends]

end

theorem exists_run (class? : Char → Bool) (text : List Char) :
    ∃ body rest, text = body ++ rest ∧ (∀ c ∈ body, class? c = true) ∧
      ∀ c ∈ rest.head?, class? c = false := by
  refine ⟨text.takeWhile class?, text.dropWhile class?, text.takeWhile_append_dropWhile.symm, ?_, ?_⟩
  · exact List.all_eq_true.mp List.all_takeWhile
  · intro c head
    have stops := List.head?_dropWhile_not class? text
    rw [head] at stops
    simpa using stops

/-! ## Comments -/

theorem splitComment_append {body : List Char} (closes : CommentInterior body) (rest : List Char) :
    splitComment (body ++ '*' :: '/' :: rest) = some (body ++ ['*', '/'], rest) := by
  induction body with
  | nil => rfl
  | cons c body ih =>
      obtain ⟨early, later⟩ := commentInterior_cons.mp closes
      have open' : ∀ after, c = '*' → body ++ '*' :: '/' :: rest = '/' :: after → False := by
        intro after star slash
        apply early star
        cases body with
        | nil => simp at slash
        | cons d body => simpa using (List.cons.inj slash).1
      rw [List.cons_append, splitComment.eq_2 c _ open', ih later]
      rfl

theorem exists_comment {text body rest : List Char} (split : splitComment text = some (body, rest)) :
    ∃ inner, body = inner ++ ['*', '/'] ∧ CommentInterior inner ∧ text = inner ++ '*' :: '/' :: rest := by
  fun_induction splitComment text generalizing body with
  | case1 after =>
      simp only [Option.some.injEq, Prod.mk.injEq] at split
      obtain ⟨rfl, rfl⟩ := split
      exact ⟨[], rfl, commentInterior_nil, rfl⟩
  | case2 c text open' ih =>
      obtain ⟨⟨body, after⟩, found, same⟩ := Option.map_eq_some_iff.mp split
      simp only [Prod.mk.injEq] at same
      obtain ⟨rfl, rfl⟩ := same
      obtain ⟨inner, rfl, closes, rfl⟩ := ih found
      refine ⟨c :: inner, rfl, commentInterior_cons.mpr ⟨?_, closes⟩, rfl⟩
      intro star slash
      cases inner with
      | nil => simp at slash
      | cons d inner =>
          obtain rfl : d = '/' := by simpa using slash
          exact open' _ star rfl
  | case3 => simp at split

/-! ## The first piece, by its first character -/

theorem first_of_isBlank {c : Char} (blank : isBlank c = true) (rest : List Char) :
    first c rest = run (fun _ => .gap) [c] isBlank rest := by
  simp [first, blank]

theorem first_of_isDigit {c : Char} (digit : c.isDigit = true) (rest : List Char) :
    first c rest = run integerRole [c] Char.isDigit rest := by
  simp [first, isBlank_of_isDigit digit, digit]

theorem first_of_isWordStart {c : Char} (start : isWordStart c = true) (rest : List Char) :
    first c rest = run wordRole [c] isWordChar rest := by
  simp [first, isBlank_of_isWordStart start, isDigit_of_isWordStart start, start]

theorem first_quote (rest : List Char) : first '"' rest = quoted rest := rfl

theorem first_slash (rest : List Char) : first '/' rest = slashed rest := rfl

theorem first_symbol {sign : Symbol} (other : sign ≠ .slash) (rest : List Char) :
    first sign.char rest = ⟨.token (.symbol sign), [sign.char], rest⟩ := by
  cases sign with
  | slash => exact absurd rfl other
  | _ => rfl

/-- Everything that the first piece of a text can be. -/
theorem first_cases (c : Char) (rest : List Char) :
    (isBlank c = true ∧ first c rest = run (fun _ => .gap) [c] isBlank rest) ∨
    (c.isDigit = true ∧ first c rest = run integerRole [c] Char.isDigit rest) ∨
    (isWordStart c = true ∧ first c rest = run wordRole [c] isWordChar rest) ∨
    (c = '"' ∧ first c rest = quoted rest) ∨
    (c = '/' ∧ first c rest = slashed rest) ∨
    (∃ sign : Symbol, sign ≠ .slash ∧ c = sign.char ∧
      first c rest = ⟨.token (.symbol sign), [c], rest⟩) ∨
    isBlank c = false ∧ isWordChar c = false ∧ c ≠ '"' ∧ (∀ sign : Symbol, c ≠ sign.char) ∧
      first c rest = ⟨.fault .strayCharacter, [c], rest⟩ := by
  by_cases blank : isBlank c = true
  · exact Or.inl ⟨blank, first_of_isBlank blank rest⟩
  by_cases digit : c.isDigit = true
  · exact Or.inr (Or.inl ⟨digit, first_of_isDigit digit rest⟩)
  by_cases start : isWordStart c = true
  · exact Or.inr (Or.inr (Or.inl ⟨start, first_of_isWordStart start rest⟩))
  by_cases quote : c = '"'
  · exact Or.inr (Or.inr (Or.inr (Or.inl ⟨quote, quote ▸ first_quote rest⟩)))
  by_cases slash : c = '/'
  · exact Or.inr (Or.inr (Or.inr (Or.inr (Or.inl ⟨slash, slash ▸ first_slash rest⟩))))
  refine Or.inr (Or.inr (Or.inr (Or.inr (Or.inr ?_))))
  cases found : Symbol.ofChar? c with
  | some sign =>
      obtain rfl : sign.char = c := by simpa using List.find?_some found
      have other : sign ≠ .slash := by
        rintro rfl
        exact slash rfl
      exact Or.inl ⟨sign, other, rfl, first_symbol other rest⟩
  | none =>
      have unknown : ∀ sign : Symbol, c ≠ sign.char := by
        rintro sign rfl
        exact List.find?_eq_none.mp found sign sign.mem_all (beq_self_eq_true _)
      refine Or.inr ⟨by simpa using blank, by simp [isWordChar_eq, digit, start], quote, unknown, ?_⟩
      simp [first, blank, digit, start, quote, slash, found]

/-! ## Tokens -/

theorem quoted_append {body : List Char} (plain : ∀ c ∈ body, c ≠ '"' ∧ c ≠ '\n') (rest : List Char) :
    quoted (body ++ '"' :: rest) = ⟨.token .strConst, '"' :: body ++ ['"'], rest⟩ := by
  have inside : ∀ c ∈ body, isStringChar c = true := by simpa [isStringChar] using plain
  have stop : ∀ c ∈ ('"' :: rest).head?, isStringChar c = false := by simp [isStringChar]
  rw [quoted, takeWhile_append inside stop, dropWhile_append inside stop]
  rfl

theorem slashed_of_complete {rest : List Char} (complete : ∀ c ∈ rest.head?, c ≠ '/' ∧ c ≠ '*') :
    slashed rest = ⟨.token (.symbol .slash), ['/'], rest⟩ := by
  unfold slashed
  split
  · exact absurd rfl (complete '/' rfl).1
  · exact absurd rfl (complete '*' rfl).2
  · rfl

/-- Reading with sixteen bits leaves no number out that is small enough. -/
theorem integerRole_eq {digits : List Char} (nonempty : digits ≠ [])
    (decimal : ∀ c ∈ digits, c.isDigit = true) :
    integerRole digits =
      if Numeral.decimal digits ≤ maxInt then .token .intConst else .fault .integerTooLarge := by
  rw [integerRole, Numeral.unsigned?_digits (by decide) nonempty decimal, Numeral.fit?]
  have small : maxInt < UInt16.size := by decide
  by_cases fits : Numeral.decimal digits < UInt16.size
  · simp [fits]
  · have large : ¬ Numeral.decimal digits ≤ maxInt := by omega
    simp [fits, large]

theorem wordRole_text (word : Keyword) : wordRole word.text.toList = .token (.keyword word) := by
  cases word <;> decide +kernel

theorem wordRole_of_free {word : List Char} (free : ∀ keyword : Keyword, keyword.text.toList ≠ word) :
    wordRole word = .token .ident := by
  have none : Keyword.ofText? (String.ofList word) = none := by
    rw [Keyword.ofText?, List.find?_eq_none]
    intro keyword _ same
    apply free keyword
    rw [← keyword.pattern_eq_text, beq_iff_eq.mp same, String.toList_ofList]
  simp [wordRole, none]

theorem first_of_spelling {kind : Kind} {lexeme text rest : List Char}
    (spelling : Spelling kind lexeme text) (complete : kind.Complete rest) :
    ∃ c more, text ++ rest = c :: more ∧ first c more = ⟨.token kind, text, rest⟩ := by
  cases spelling with
  | @fixed _ text known =>
      cases kind with
      | keyword word =>
          cases known
          obtain ⟨c, letters, same, start, inside⟩ := exists_letters word
          refine ⟨c, letters ++ rest, by rw [same, List.cons_append], ?_⟩
          rw [first_of_isWordStart start, run_append inside complete, List.singleton_append, ← same,
            wordRole_text]
      | symbol sign =>
          cases known
          refine ⟨sign.char, rest, by simp, ?_⟩
          by_cases other : sign = .slash
          · cases other
            exact slashed_of_complete complete
          · rw [first_symbol other]
            simp
      | intConst | strConst | ident | eof => cases known
  | integer nonempty decimal inRange =>
      obtain ⟨c, digits, rfl⟩ := List.exists_cons_of_ne_nil nonempty
      obtain ⟨digit, inside⟩ := List.forall_mem_cons.mp decimal
      refine ⟨c, digits ++ rest, rfl, ?_⟩
      rw [first_of_isDigit digit, run_append inside complete, List.singleton_append,
        integerRole_eq nonempty decimal, if_pos inRange]
  | string plain =>
      refine ⟨'"', lexeme ++ '"' :: rest, by simp, ?_⟩
      rw [first_quote, quoted_append plain]
  | @name c letters start word free =>
      refine ⟨c, letters ++ rest, rfl, ?_⟩
      rw [first_of_isWordStart start, run_append word complete, List.singleton_append,
        wordRole_of_free free]

theorem spelling_of_integerRole {digits : List Char} {kind : Kind} (nonempty : digits ≠ [])
    (decimal : ∀ c ∈ digits, c.isDigit = true) (role : integerRole digits = .token kind) :
    kind = .intConst ∧ Spelling kind digits digits := by
  rw [integerRole_eq nonempty decimal] at role
  split at role
  · rename_i inRange
    cases role
    exact ⟨rfl, .integer nonempty decimal inRange⟩
  · cases role

theorem spelling_of_wordRole {c : Char} {letters : List Char} {kind : Kind} (start : isWordStart c = true)
    (inside : ∀ d ∈ letters, isWordChar d = true) (role : wordRole (c :: letters) = .token kind) :
    (kind = .ident ∨ ∃ word, kind = .keyword word) ∧ Spelling kind (c :: letters) (c :: letters) := by
  unfold wordRole at role
  split at role
  · rename_i word found
    cases role
    have same : word.text = String.ofList (c :: letters) := by
      simpa [Keyword.pattern_eq_text] using List.find?_some found
    have spelling : Spelling (.keyword word) word.text.toList word.text.toList := .fixed rfl
    rw [same, String.toList_ofList] at spelling
    exact ⟨Or.inr ⟨word, rfl⟩, spelling⟩
  · rename_i none
    cases role
    refine ⟨Or.inl rfl, .name start inside ?_⟩
    intro word same
    apply List.find?_eq_none.mp none word word.mem_all
    rw [← same, String.ofList_toList, word.pattern_eq_text]
    exact beq_self_eq_true _

theorem quoted_open {body rest : List Char} (plain : ∀ c ∈ body, c ≠ '"' ∧ c ≠ '\n')
    (ends : ∀ c ∈ rest.head?, c = '\n') :
    quoted (body ++ rest) = ⟨.fault .unterminatedString, '"' :: body, rest⟩ := by
  have inside : ∀ c ∈ body, isStringChar c = true := by simpa [isStringChar] using plain
  have stop : ∀ c ∈ rest.head?, isStringChar c = false := by
    intro c head
    rw [ends c head]
    rfl
  rw [quoted, takeWhile_append inside stop, dropWhile_append inside stop]
  cases rest with
  | nil => rfl
  | cons c rest =>
      cases ends c rfl
      rfl

theorem quoted_cases (text : List Char) :
    (∃ body rest, (∀ c ∈ body, c ≠ '"' ∧ c ≠ '\n') ∧
      quoted text = ⟨.token .strConst, '"' :: body ++ ['"'], rest⟩) ∨
    ∃ body rest, (∀ c ∈ body, c ≠ '"' ∧ c ≠ '\n') ∧ (∀ c ∈ rest.head?, c = '\n') ∧
      quoted text = ⟨.fault .unterminatedString, '"' :: body, rest⟩ := by
  obtain ⟨body, rest, rfl, inside, ends⟩ := exists_run isStringChar text
  have plain : ∀ c ∈ body, c ≠ '"' ∧ c ≠ '\n' := by simpa [isStringChar] using inside
  by_cases quote : rest.head? = some '"'
  · obtain ⟨after, rfl⟩ := List.head?_eq_some_iff.mp quote
    exact Or.inl ⟨body, after, plain, quoted_append plain after⟩
  · have newline : ∀ c ∈ rest.head?, c = '\n' := by
      intro c head
      have other : c ≠ '"' := by
        rintro rfl
        exact quote head
      simpa [isStringChar, other] using ends c head
    exact Or.inr ⟨body, rest, plain, newline, quoted_open plain newline⟩

theorem slashed_line {body rest : List Char} (inLine : '\n' ∉ body) (ends : ∀ c ∈ rest.head?, c = '\n') :
    slashed ('/' :: body ++ rest) = ⟨.gap, '/' :: '/' :: body, rest⟩ := by
  have inside : ∀ c ∈ body, (c != '\n') = true := by
    intro c member
    simp only [bne_iff_ne, ne_eq]
    rintro rfl
    exact inLine member
  have stop : ∀ c ∈ rest.head?, (c != '\n') = false := by
    intro c head
    simp [ends c head]
  simp [slashed, run_append inside stop]

theorem slashed_block {body : List Char} (closes : CommentInterior body) (rest : List Char) :
    slashed ('*' :: body ++ '*' :: '/' :: rest) = ⟨.gap, '/' :: '*' :: body ++ ['*', '/'], rest⟩ := by
  simp [slashed, splitComment_append closes]

theorem slashed_cases (text : List Char) :
    (∃ body rest, '\n' ∉ body ∧ (∀ c ∈ rest.head?, c = '\n') ∧
      slashed text = ⟨.gap, '/' :: '/' :: body, rest⟩) ∨
    (∃ body rest, CommentInterior body ∧
      slashed text = ⟨.gap, '/' :: '*' :: body ++ ['*', '/'], rest⟩) ∨
    (∃ body, splitComment body = none ∧
      slashed text = ⟨.fault .unclosedComment, '/' :: '*' :: body, []⟩) ∨
    (∀ c ∈ text.head?, c ≠ '/' ∧ c ≠ '*') ∧ slashed text = ⟨.token (.symbol .slash), ['/'], text⟩ := by
  cases text with
  | nil => exact Or.inr (Or.inr (Or.inr ⟨by simp, rfl⟩))
  | cons c more =>
      by_cases slash : c = '/'
      · subst slash
        obtain ⟨body, rest, rfl, inside, ends⟩ := exists_run (· != '\n') more
        have inLine : '\n' ∉ body := fun member => by simpa using inside '\n' member
        have stop : ∀ c ∈ rest.head?, c = '\n' := by simpa using ends
        exact Or.inl ⟨body, rest, inLine, stop, slashed_line inLine stop⟩
      by_cases star : c = '*'
      · subst star
        cases split : splitComment more with
        | none => exact Or.inr (Or.inr (Or.inl ⟨more, split, by simp [slashed, split]⟩))
        | some both =>
            obtain ⟨body, rest⟩ := both
            obtain ⟨inner, rfl, closes, rfl⟩ := exists_comment split
            exact Or.inr (Or.inl ⟨inner, rest, closes, slashed_block closes rest⟩)
      · have complete : ∀ d ∈ (c :: more).head?, d ≠ '/' ∧ d ≠ '*' := by simp [slash, star]
        exact Or.inr (Or.inr (Or.inr ⟨complete, slashed_of_complete complete⟩))

theorem spelling_of_first {c : Char} {rest : List Char} {kind : Kind}
    (role : (first c rest).role = .token kind) :
    ∃ lexeme, Spelling kind lexeme (first c rest).text ∧ kind.Complete (first c rest).rest := by
  rcases first_cases c rest with ⟨blank, same⟩ | ⟨digit, same⟩ | ⟨start, same⟩ | ⟨rfl, same⟩ |
    ⟨rfl, same⟩ | ⟨sign, other, rfl, same⟩ | ⟨_, _, _, _, same⟩
  all_goals rw [same] at role ⊢
  · cases role
  · obtain ⟨body, after, rfl, inside, ends⟩ := exists_run Char.isDigit rest
    rw [run_append inside ends] at role ⊢
    obtain ⟨rfl, spelling⟩ :=
      spelling_of_integerRole (by simp) (List.forall_mem_cons.mpr ⟨digit, inside⟩) role
    exact ⟨_, spelling, ends⟩
  · obtain ⟨body, after, rfl, inside, ends⟩ := exists_run isWordChar rest
    rw [run_append inside ends] at role ⊢
    obtain ⟨rfl | ⟨word, rfl⟩, spelling⟩ := spelling_of_wordRole start inside role
    · exact ⟨_, spelling, ends⟩
    · exact ⟨_, spelling, ends⟩
  · rcases quoted_cases rest with ⟨body, after, plain, cut⟩ | ⟨body, after, _, _, cut⟩
    · rw [cut] at role ⊢
      cases role
      exact ⟨_, .string plain, trivial⟩
    · rw [cut] at role
      cases role
  · rcases slashed_cases rest with ⟨_, _, _, _, cut⟩ | ⟨_, _, _, cut⟩ | ⟨_, _, cut⟩ | ⟨complete, cut⟩
    all_goals
      rw [cut] at role ⊢
      cases role
    exact ⟨_, .symbol .slash, complete⟩
  · cases role
    exact ⟨_, .symbol sign, Kind.complete_symbol other rest⟩
  · cases role

/-! ## Gaps -/

theorem gap_blanks {blanks text after : List Char} (inside : ∀ c ∈ blanks, isBlank c = true)
    (more : Gap text after) : Gap (blanks ++ text) after := by
  induction blanks with
  | nil => exact more
  | cons c blanks ih =>
      obtain ⟨blank, others⟩ := List.forall_mem_cons.mp inside
      exact .blank blank (ih others)

theorem gap_of_first {c : Char} {rest gap after : List Char} (role : (first c rest).role = .gap)
    (same : (first c rest).rest = gap ++ after) (more : Gap gap after) :
    Gap ((first c rest).text ++ gap) after := by
  rcases first_cases c rest with ⟨blank, cut⟩ | ⟨_, cut⟩ | ⟨_, cut⟩ | ⟨rfl, cut⟩ | ⟨rfl, cut⟩ |
    ⟨sign, _, _, cut⟩ | ⟨_, _, _, _, cut⟩
  all_goals rw [cut] at role same ⊢
  · exact gap_blanks (List.forall_mem_cons.mpr ⟨blank, List.all_eq_true.mp List.all_takeWhile⟩) more
  · simp only [run, integerRole] at role
    split at role <;> cases role
  · simp only [run, wordRole] at role
    split at role <;> cases role
  · rcases quoted_cases rest with ⟨_, _, _, cut⟩ | ⟨_, _, _, _, cut⟩
    all_goals
      rw [cut] at role
      cases role
  · rcases slashed_cases rest with ⟨body, text, inLine, ends, cut⟩ | ⟨body, text, closes, cut⟩ |
      ⟨_, _, cut⟩ | ⟨_, cut⟩
    all_goals rw [cut] at role same ⊢
    · cases same
      exact .lineComment inLine ends more
    · simpa using Gap.blockComment closes more
    · cases role
    · cases role
  · cases role
  · cases role

end Piece

end Jack
