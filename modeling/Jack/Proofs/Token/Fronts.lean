import Jack.Proofs.Token.Lossless

/-!
# Texts in front of other texts

A text that is laid out as tokens keeps its layout when what follows it is cut off, or is replaced by something
that begins in the same way or with a line feed. Scanning goes on behind such a text as it would behind nothing.
-/

namespace Jack

/-! ## What follows -/

/-- Every piece that ends in front of `after` also ends in front of `other`, which is empty or begins with a line
feed or as `after` does. -/
def BreaksAs (other after : List Char) : Prop := ∀ c ∈ other.head?, c = '\n' ∨ c ∈ after.head?

namespace BreaksAs

variable {other after : List Char}

theorem nil (after : List Char) : BreaksAs [] after := by simp [BreaksAs]

theorem lineFeed (rest after : List Char) : BreaksAs ('\n' :: rest) after := by simp [BreaksAs]

theorem behind (same : BreaksAs other after) (front : List Char) :
    BreaksAs (front ++ other) (front ++ after) := by
  cases front with
  | nil => exact same
  | cons c front =>
      intro d head
      exact Or.inr head

theorem append_lineFeed (after rest : List Char) : BreaksAs (after ++ '\n' :: rest) after := by
  have behind := (lineFeed rest []).behind after
  rwa [List.append_nil] at behind

theorem forall_head {stops : Char → Prop} (same : BreaksAs other after) (feed : stops '\n')
    (ends : ∀ c ∈ after.head?, stops c) : ∀ c ∈ other.head?, stops c := by
  intro c head
  rcases same c head with rfl | head'
  · exact feed
  · exact ends c head'

end BreaksAs

theorem Gap.of_breaksAs {text after other : List Char} (gap : Gap text after)
    (same : BreaksAs other after) : Gap text other := by
  induction gap with
  | nothing after => exact .nothing other
  | blank blank _ ih => exact .blank blank (ih same)
  | lineComment inLine ends _ ih =>
      exact .lineComment inLine ((same.behind _).forall_head rfl ends) (ih same)
  | blockComment closes _ ih => exact .blockComment closes (ih same)

theorem Kind.Complete.of_breaksAs {kind : Kind} {after other : List Char} (complete : kind.Complete after)
    (same : BreaksAs other after) : kind.Complete other := by
  -- No token goes on with a line feed, so the first character of `after` is all that matters.
  cases kind with
  | keyword word => exact same.forall_head (by decide) complete
  | symbol sign =>
      by_cases slash : sign = .slash
      · subst slash
        exact same.forall_head (by decide) complete
      · exact Kind.complete_symbol slash other
  | intConst => exact same.forall_head (by decide) complete
  | ident => exact same.forall_head (by decide) complete
  | strConst | eof => trivial

/-! ## Fronts -/

/-- A text that begins at a place and stands in front of `after`, made up of the tokens with gaps around them. -/
inductive Front : Position → List Char → List Token → (after : List Char) → Prop where
  | done {place : Position} {text after : List Char} (gap : Gap text after) : Front place text [] after
  | token {place : Position} {gap lexeme text more after : List Char} {kind : Kind} {tokens : List Token}
      (apart : Gap gap (text ++ (more ++ after))) (spelling : Spelling kind lexeme text)
      (complete : kind.Complete (more ++ after))
      (next : Front ((place.past gap).past text) more tokens after) :
      Front place (gap ++ text ++ more)
        (⟨kind, String.ofList lexeme, (place.past gap).cover text⟩ :: tokens) after

theorem Layout.front {place : Position} {text : List Char} {tokens : List Token}
    (layout : Layout place text tokens) : Front place text tokens [] := by
  induction layout with
  | done gap => exact .done gap
  | @token place gap lexeme text after kind tokens apart spelling complete _ ih =>
      exact .token (by rwa [List.append_nil]) spelling (by rwa [List.append_nil]) ih

namespace Front

variable {place : Position} {text after other : List Char} {tokens : List Token}

theorem of_breaksAs (front : Front place text tokens after) (same : BreaksAs other after) :
    Front place text tokens other := by
  induction front with
  | done gap => exact .done (gap.of_breaksAs same)
  | @token _ gap lexeme text more after kind tokens apart spelling complete _ ih =>
      have same' := same.behind more
      exact .token (apart.of_breaksAs (same'.behind text)) spelling (complete.of_breaksAs same') (ih same)

theorem scanFrom_append (front : Front place text tokens after) :
    Token.scanFrom place (text ++ after) =
      (Token.scanFrom (place.past text) after).map (tokens ++ ·) := by
  induction front with
  | done gap =>
      rw [Token.scanFrom_gap gap]
      cases Token.scanFrom _ _ <;> rfl
  | @token place gap lexeme text more after kind tokens apart spelling complete _ ih =>
      obtain ⟨c, rest, same, cut⟩ := Piece.first_of_spelling spelling complete
      rw [List.append_assoc, List.append_assoc, Token.scanFrom_gap apart, same,
        Token.scanFrom_of_token cut, ih, spelling.lexemeOf_text, Position.past_append, Position.past_append]
      cases Token.scanFrom _ _ <;> rfl

theorem scanFrom_eq (front : Front place text tokens after) : Token.scanFrom place text = .ok tokens := by
  have alone := (front.of_breaksAs (.nil after)).scanFrom_append
  rw [List.append_nil, Token.scanFrom] at alone
  rw [alone, Except.map, List.append_nil]

theorem after_gap {gap : List Char} (join : ∀ front behind, text ++ after = front ++ behind → Gap front behind →
      Gap (gap ++ front) behind) (front : Front (place.past gap) text tokens after) :
    Front place (gap ++ text) tokens after := by
  cases front with
  | done inner => exact .done (join text after rfl inner)
  | token apart spelling complete next =>
      have joined := Front.token (join _ _ (by simp) apart) spelling complete
        (by rw [Position.past_append]; exact next)
      rw [Position.past_append, List.append_assoc gap, List.append_assoc gap] at joined
      exact joined

end Front

end Jack
