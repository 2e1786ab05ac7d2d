import Jack.Token.Scan

/-!
# How a source text is laid out

The texts of tokens, the gaps between them, and the way in which both make up a source, with nothing said
about how a source is scanned.
-/

namespace Jack

/-- The text of a token of a kind, and what is kept of it as the lexeme. -/
inductive Spelling : Kind → (lexeme text : List Char) → Prop where
  | fixed {kind : Kind} {text : String} (known : kind.fixedText? = some text) :
      Spelling kind text.toList text.toList
  | integer {digits : List Char} (nonempty : digits ≠ []) (decimal : ∀ c ∈ digits, c.isDigit = true)
      (inRange : Numeral.decimal digits ≤ maxInt) : Spelling .intConst digits digits
  | string {body : List Char} (plain : ∀ c ∈ body, c ≠ '"' ∧ c ≠ '\n') :
      Spelling .strConst body ('"' :: body ++ ['"'])
  | name {c : Char} {rest : List Char} (start : isWordStart c = true)
      (word : ∀ d ∈ rest, isWordChar d = true) (free : ∀ keyword : Keyword, keyword.text.toList ≠ c :: rest) :
      Spelling .ident (c :: rest) (c :: rest)

/-- What follows a token of this kind does not go on with it. -/
def Kind.Complete : Kind → List Char → Prop
  | .keyword _, after => ∀ c ∈ after.head?, isWordChar c = false
  | .ident, after => ∀ c ∈ after.head?, isWordChar c = false
  | .intConst, after => ∀ c ∈ after.head?, c.isDigit = false
  | .symbol .slash, after => ∀ c ∈ after.head?, c ≠ '/' ∧ c ≠ '*'
  | _, _ => True

/-- Of what stands between `/*` and `*/`: the first `*/` is the one that closes the comment. -/
def CommentInterior (body : List Char) : Prop := ¬ ['*', '/'] <:+: body ++ ['*']

/-- Blanks and comments in front of `after`. A comment that begins with `//` goes on to the end of the
line. -/
inductive Gap : (text after : List Char) → Prop where
  | nothing (after : List Char) : Gap [] after
  | blank {c : Char} {text after : List Char} (blank : isBlank c = true) (more : Gap text after) :
      Gap (c :: text) after
  | lineComment {body text after : List Char} (inLine : '\n' ∉ body)
      (ends : ∀ c ∈ (text ++ after).head?, c = '\n') (more : Gap text after) :
      Gap ('/' :: '/' :: body ++ text) after
  | blockComment {body text after : List Char} (closes : CommentInterior body) (more : Gap text after) :
      Gap ('/' :: '*' :: body ++ '*' :: '/' :: text) after

/-- A text that begins at a place and is made up of the tokens, with gaps before, between and after them. -/
inductive Layout : Position → List Char → List Token → Prop where
  | done {place : Position} {text : List Char} (gap : Gap text []) : Layout place text []
  | token {place : Position} {gap lexeme text after : List Char} {kind : Kind} {tokens : List Token}
      (apart : Gap gap (text ++ after)) (spelling : Spelling kind lexeme text)
      (complete : kind.Complete after) (more : Layout ((place.past gap).past text) after tokens) :
      Layout place (gap ++ text ++ after)
        (⟨kind, String.ofList lexeme, (place.past gap).cover text⟩ :: tokens)

/-! ## Comments -/

theorem commentInterior_nil : CommentInterior [] := by
  unfold CommentInterior
  decide

theorem commentInterior_cons {c : Char} {body : List Char} :
    CommentInterior (c :: body) ↔ (c = '*' → (body ++ ['*']).head? ≠ some '/') ∧ CommentInterior body := by
  rw [CommentInterior, CommentInterior, List.cons_append, List.infix_cons_iff, not_or]
  refine and_congr_left fun _ => ?_
  cases body ++ ['*'] with
  | nil => simp
  | cons d rest => simp [List.cons_prefix_cons, eq_comm]

/-! ## Texts of tokens -/

theorem Kind.complete_symbol {sign : Symbol} (other : sign ≠ .slash) (after : List Char) :
    Complete (.symbol sign) after := by
  cases sign with
  | slash => exact absurd rfl other
  | _ => trivial

namespace Spelling

variable {kind : Kind} {lexeme text : List Char}

theorem symbol (sign : Symbol) : Spelling (.symbol sign) [sign.char] [sign.char] := by
  have spelling : Spelling (.symbol sign) sign.text.toList sign.text.toList := .fixed rfl
  simpa using spelling

theorem text_ne_nil (spelling : Spelling kind lexeme text) : text ≠ [] := by
  cases spelling with
  | fixed known =>
      cases kind with
      | keyword word =>
          cases known
          cases word <;> decide +kernel
      | symbol sign =>
          cases known
          cases sign <;> decide +kernel
      | intConst | strConst | ident | eof => cases known
  | integer nonempty _ _ => exact nonempty
  | string _ => simp
  | name _ _ _ => simp

theorem kind_ne_eof (spelling : Spelling kind lexeme text) : kind ≠ .eof := by
  rintro rfl
  cases spelling with
  | fixed known => cases known

theorem lexemeOf_text (spelling : Spelling kind lexeme text) :
    Token.lexemeOf kind text = String.ofList lexeme := by
  cases spelling with
  | fixed known =>
      cases kind with
      | keyword word => rfl
      | symbol sign => rfl
      | intConst | strConst | ident | eof => cases known
  | integer _ _ _ => rfl
  | string _ => simp [Token.lexemeOf]
  | name _ _ _ => rfl

end Spelling

end Jack
