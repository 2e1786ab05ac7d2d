import Jack.Proofs.Token.Fronts

/-!
# Faults of scanning

A scan fails if and only if the source begins with a text that is laid out as tokens, and behind it stands a
text with a flaw. There are four kinds of flaw, and the faulty text alone tells which one it is.
-/

namespace Jack

open Piece

/-! ## Flaws -/

/-- What is wrong with a text that stands in front of `after` and is no token. -/
inductive Flaw : ScanFault → (text after : List Char) → Prop where
  | integer {digits after : List Char} (nonempty : digits ≠ []) (decimal : ∀ c ∈ digits, c.isDigit = true)
      (ends : ∀ c ∈ after.head?, c.isDigit = false) (tooLarge : maxInt < Numeral.decimal digits) :
      Flaw .integerTooLarge digits after
  | string {body after : List Char} (plain : ∀ c ∈ body, c ≠ '"' ∧ c ≠ '\n')
      (ends : ∀ c ∈ after.head?, c = '\n') : Flaw .unterminatedString ('"' :: body) after
  | comment {body : List Char} (unclosed : ¬ ['*', '/'] <:+: body) :
      Flaw .unclosedComment ('/' :: '*' :: body) []
  | stray {c : Char} (after : List Char) (blank : isBlank c = false) (word : isWordChar c = false)
      (quote : c ≠ '"') (sign : ∀ sign : Symbol, c ≠ sign.char) : Flaw .strayCharacter [c] after

theorem splitComment_eq_none_iff {text : List Char} :
    splitComment text = none ↔ ¬ ['*', '/'] <:+: text := by
  fun_induction splitComment text with
  | case1 rest => simp [List.infix_cons_iff]
  | case2 c rest other ih =>
      have later : ¬ ['*', '/'] <+: c :: rest := by
        rintro ⟨after, same⟩
        cases same
        exact other after rfl rfl
      rw [Option.map_eq_none_iff, ih, List.infix_cons_iff, not_or, and_iff_right later]
  | case3 => simp

theorem isDigit_of_not_isWordChar {c : Char} (other : isWordChar c = false) : c.isDigit = false := by
  rw [isWordChar_eq, Bool.or_eq_false_iff] at other
  exact other.2

namespace Flaw

variable {cause : ScanFault} {text after other : List Char}

theorem of_breaksAs (flaw : Flaw cause text after) (closed : cause ≠ .unclosedComment)
    (same : BreaksAs other after) : Flaw cause text other := by
  cases flaw with
  | integer nonempty decimal ends tooLarge =>
      exact .integer nonempty decimal (same.forall_head (by decide) ends) tooLarge
  | string plain ends => exact .string plain (same.forall_head rfl ends)
  | comment _ => exact absurd rfl closed
  | stray _ blank word quote sign => exact .stray other blank word quote sign

theorem text_ne_nil (flaw : Flaw cause text after) : text ≠ [] := by
  cases flaw with
  | integer nonempty _ _ _ => exact nonempty
  | string _ _ | comment _ | stray _ _ _ _ _ => simp

/-- The first character of a faulty text tells what is wrong with it. -/
def causeOf (c : Char) : ScanFault :=
  if c.isDigit then .integerTooLarge
  else if c = '"' then .unterminatedString
  else if c = '/' then .unclosedComment
  else .strayCharacter

theorem eq_causeOf (flaw : Flaw cause text after) : ∀ c ∈ text.head?, cause = causeOf c := by
  cases flaw with
  | integer _ decimal _ _ =>
      intro c head
      simp [causeOf, decimal c (List.mem_of_mem_head? head)]
  | string _ _ | comment _ =>
      rintro c ⟨⟩
      decide
  | @stray c _ _ word quote sign =>
      rintro d ⟨⟩
      have slash : c ≠ '/' := sign .slash
      simp [causeOf, isDigit_of_not_isWordChar word, quote, slash]

end Flaw

/-! ## Faulty pieces -/

namespace Piece

theorem first_of_flaw {cause : ScanFault} {text after : List Char} (flaw : Flaw cause text after) :
    ∃ c more, text ++ after = c :: more ∧ first c more = ⟨.fault cause, text, after⟩ := by
  cases flaw with
  | integer nonempty decimal ends tooLarge =>
      obtain ⟨c, digits, rfl⟩ := List.exists_cons_of_ne_nil nonempty
      obtain ⟨digit, inside⟩ := List.forall_mem_cons.mp decimal
      refine ⟨c, digits ++ after, rfl, ?_⟩
      rw [first_of_isDigit digit, run_append inside ends, List.singleton_append,
        integerRole_eq nonempty decimal, if_neg (Nat.not_le.mpr tooLarge)]
  | @string body _ plain ends => exact ⟨'"', body ++ after, rfl, quoted_open plain ends⟩
  | @comment body unclosed =>
      refine ⟨'/', '*' :: body, by simp, ?_⟩
      rw [first_slash, slashed, splitComment_eq_none_iff.mpr unclosed]
  | @stray c _ blank word quote sign =>
      obtain ⟨start, digit⟩ : isWordStart c = false ∧ c.isDigit = false := by
        rwa [isWordChar_eq, Bool.or_eq_false_iff] at word
      have slash : c ≠ '/' := sign .slash
      have unknown : Symbol.ofChar? c = none := by
        rw [Symbol.ofChar?, List.find?_eq_none]
        intro s _ same
        exact sign s (beq_iff_eq.mp same).symm
      exact ⟨c, after, rfl, by simp [first, blank, digit, start, quote, slash, unknown]⟩

theorem flaw_of_first {c : Char} {rest : List Char} {cause : ScanFault}
    (role : (first c rest).role = .fault cause) :
    Flaw cause (first c rest).text (first c rest).rest := by
  rcases first_cases c rest with ⟨blank, same⟩ | ⟨digit, same⟩ | ⟨start, same⟩ | ⟨rfl, same⟩ |
    ⟨rfl, same⟩ | ⟨sign, other, rfl, same⟩ | ⟨blank, word, quote, sign, same⟩
  all_goals rw [same] at role ⊢
  · cases role
  · obtain ⟨body, after, rfl, inside, ends⟩ := exists_run Char.isDigit rest
    have nonempty : [c] ++ body ≠ [] := by simp
    have decimal : ∀ d ∈ [c] ++ body, d.isDigit = true := List.forall_mem_cons.mpr ⟨digit, inside⟩
    rw [run_append inside ends, integerRole_eq nonempty decimal] at role
    rw [run_append inside ends]
    split at role
    · cases role
    · rename_i tooLarge
      cases role
      exact .integer nonempty decimal ends (Nat.not_le.mp tooLarge)
  · simp only [run, wordRole] at role
    split at role <;> cases role
  · rcases quoted_cases rest with ⟨_, _, _, cut⟩ | ⟨body, after, plain, ends, cut⟩
    all_goals
      rw [cut] at role ⊢
      cases role
    exact .string plain ends
  · rcases slashed_cases rest with ⟨_, _, _, _, cut⟩ | ⟨_, _, _, cut⟩ | ⟨body, open', cut⟩ | ⟨_, cut⟩
    all_goals
      rw [cut] at role ⊢
      cases role
    exact .comment (splitComment_eq_none_iff.mp open')
  · cases role
  · cases role
    exact .stray rest blank word quote sign

end Piece

/-! ## Scans that fail -/

theorem error_of_map {α β : Type} {f : α → β} {result : Except Diagnostic α} {d : Diagnostic}
    (failed : result.map f = .error d) : result = .error d := by
  cases result with
  | error e => exact congrArg _ (Except.error.inj failed)
  | ok value => cases failed

namespace Token

theorem scanFrom_of_fault {c : Char} {more text rest : List Char} {cause : ScanFault}
    (cut : first c more = ⟨.fault cause, text, rest⟩) (place : Position) :
    scanFrom place (c :: more) = .error (.scan cause.message (String.ofList text) (place.cover text)) := by
  rw [scanFrom, cut]

theorem scanFrom_of_flaw {place : Position} {before faulty after : List Char} {tokens : List Token}
    {cause : ScanFault} (front : Front place before tokens (faulty ++ after)) (flaw : Flaw cause faulty after) :
    scanFrom place (before ++ (faulty ++ after)) =
      .error (.scan cause.message (String.ofList faulty) ((place.past before).cover faulty)) := by
  obtain ⟨c, more, same, cut⟩ := first_of_flaw flaw
  rw [front.scanFrom_append, same, scanFrom_of_fault cut]
  rfl

theorem scanFrom_eq_error_iff {place : Position} {text : List Char} {d : Diagnostic} :
    scanFrom place text = .error d ↔ ∃ before tokens faulty after cause,
      text = before ++ (faulty ++ after) ∧ Front place before tokens (faulty ++ after) ∧
      Flaw cause faulty after ∧
      d = .scan cause.message (String.ofList faulty) ((place.past before).cover faulty) := by
  constructor
  · intro faulty
    fun_induction scanFrom place text with
    | case1 => cases faulty
    | case2 place c more piece role ih =>
        obtain ⟨before, tokens, text, after, cause, split, front, flaw, rfl⟩ := ih faulty
        refine ⟨piece.text ++ before, tokens, text, after, cause, ?_, ?_, flaw, ?_⟩
        · rw [List.append_assoc, ← split, first_eq]
        · apply front.after_gap
          intro gap behind same apart
          exact gap_of_first role (split.trans same) apart
        · rw [Position.past_append]
    | case3 place c more piece kind role ih =>
        obtain ⟨before, tokens, text, after, cause, split, front, flaw, rfl⟩ := ih (error_of_map faulty)
        obtain ⟨lexeme, spelling, complete⟩ := spelling_of_first role
        have joined := Front.token (.nothing _) spelling (split ▸ complete)
          (by rw [Position.past_nil]; exact front)
        refine ⟨[] ++ piece.text ++ before, _, text, after, cause, ?_, joined, flaw, ?_⟩
        · rw [List.nil_append, List.append_assoc, ← split, first_eq]
        · rw [List.nil_append, Position.past_append]
    | case4 place c more piece cause role =>
        cases faulty
        refine ⟨[], [], piece.text, piece.rest, cause, (first_eq c more).symm, .done (.nothing _),
          flaw_of_first role, ?_⟩
        rw [Position.past_nil]
  · rintro ⟨before, tokens, faulty, after, cause, rfl, front, flaw, rfl⟩
    exact scanFrom_of_flaw front flaw

end Token

/-! ## Runs of digits

A token or gap that ends with a digit is not followed by one, so that a run of digits is never cut in two. -/

section

variable {text after : List Char} {d : Char} (head : d ∈ after.head?) (digit : d.isDigit = true)
include head digit

end

/-! ## Where a scan fails and why -/

end Jack
