import Jack.Json
import Jack.Proofs.Token.Pieces
import Jack.Toml.Lexeme
import Mathlib.Data.String.Basic

/-!
# Reading structured output back

A text in the indented layout is cut into lexemes, and the value is built from them on a stack of arrays and
objects that are still open. The brackets and keys tell the structure of a value, so that commas and colons are
skipped like blanks.
-/

namespace Jack.Json

/-! ## Strings -/

def prepend (c? : Option Char) (read : Option (List Char × List Char)) : Option (List Char × List Char) :=
  c?.bind fun c => read.map fun (text, after) => (c :: text, after)

/-- Reads the characters up to the closing quote, and gives them with the text after the quote. -/
def unquote : List Char → Option (List Char × List Char)
  | '"' :: rest => some ([], rest)
  | '\\' :: 'u' :: a :: b :: c :: d :: rest => prepend (Toml.charOfHex? [a, b, c, d]) (unquote rest)
  | '\\' :: c :: rest => prepend (Toml.charOfEscape? c) (unquote rest)
  | c :: rest => prepend (some c) (unquote rest)
  | [] => none

theorem exists_of_prepend {c? : Option Char} {read : Option (List Char × List Char)} {body rest : List Char}
    (joined : prepend c? read = some (body, rest)) : ∃ inner, read = some (inner, rest) := by
  obtain ⟨c, -, mapped⟩ := Option.bind_eq_some_iff.mp joined
  obtain ⟨⟨inner, after⟩, inside, same⟩ := Option.map_eq_some_iff.mp mapped
  cases same
  exact ⟨inner, inside⟩

theorem length_of_unquote {text body rest : List Char} (read : unquote text = some (body, rest)) :
    rest.length < text.length := by
  fun_induction unquote text generalizing body with
  | case1 after =>
      cases read
      exact Nat.lt_succ_self _
  | case2 a b c d text ih =>
      obtain ⟨inner, inside⟩ := exists_of_prepend read
      have shorter := ih inside
      simp only [List.length_cons]
      omega
  | case3 c text _ ih =>
      obtain ⟨inner, inside⟩ := exists_of_prepend read
      have shorter := ih inside
      simp only [List.length_cons]
      omega
  | case4 c text _ _ _ ih =>
      obtain ⟨inner, inside⟩ := exists_of_prepend read
      exact Nat.lt_succ_of_lt (ih inside)
  | case5 => cases read

theorem charOfHex?_control : ∀ n < 32,
    Toml.charOfHex? ['0', '0', hexDigit (n / 16), hexDigit (n % 16)] = some (Char.ofNat n) := by
  decide +kernel

theorem unquote_escapeChar (c : Char) (rest : List Char) :
    unquote (escapeChar c ++ rest) = prepend (some c) (unquote rest) := by
  unfold escapeChar
  -- Seven characters have a sign of their own behind the backslash, and other control characters their code.
  split
  · rfl
  · rfl
  · rfl
  · rfl
  · rfl
  · rfl
  · rfl
  · split
    · rename_i control
      have code := charOfHex?_control c.toNat control
      rw [Char.ofNat_toNat] at code
      simp only [List.cons_append, List.nil_append, unquote, code]
    · rw [List.singleton_append, unquote.eq_def]
      split <;> simp_all

theorem unquote_append (text rest : List Char) :
    unquote (text.flatMap escapeChar ++ '"' :: rest) = some (text, rest) := by
  induction text with
  | nil => rfl
  | cons c text ih =>
      rw [List.flatMap_cons, List.append_assoc, unquote_escapeChar, ih]
      rfl

/-! ## Lexemes -/

inductive Lexeme where
  | openArray
  | closeArray
  | openObject
  | closeObject
  | number (value : Nat)
  | string (text : String)
deriving DecidableEq, Repr

def Lexeme.ofBracket? : Char → Option Lexeme
  | '[' => some .openArray
  | ']' => some .closeArray
  | '{' => some .openObject
  | '}' => some .closeObject
  | _ => none

def isSeparator (c : Char) : Bool := c == ' ' || c == '\n' || c == ',' || c == ':'

theorem isSeparator_of_isDigit {c : Char} (digit : c.isDigit = true) : isSeparator c = false := by
  simp only [isSeparator, Bool.or_eq_false_iff, beq_eq_false_iff_ne]
  refine ⟨⟨⟨?_, ?_⟩, ?_⟩, ?_⟩ <;> rintro rfl <;> cases digit

def cut (text : List Char) : Option (List Lexeme) :=
  match text with
  | [] => some []
  | c :: more =>
    if isSeparator c then cut more
    else if c.isDigit then
      (cut (more.dropWhile Char.isDigit)).map (.number (Numeral.decimal (c :: more.takeWhile Char.isDigit)) :: ·)
    else if c = '"' then
      match _read : unquote more with
      | some (body, rest) => (cut rest).map (.string (String.ofList body) :: ·)
      | none => none
    else (Lexeme.ofBracket? c).bind fun bracket => (cut more).map (bracket :: ·)
termination_by text.length
decreasing_by
  · exact Nat.lt_succ_self _
  · exact Nat.lt_succ_of_le (List.dropWhile_sublist _).length_le
  · exact Nat.lt_succ_of_lt (length_of_unquote _read)
  · exact Nat.lt_succ_self _

theorem cut_separator {c : Char} (separator : isSeparator c = true) (rest : List Char) :
    cut (c :: rest) = cut rest := by
  rw [cut, if_pos separator]

theorem cut_separators {blanks : List Char} (separators : ∀ c ∈ blanks, isSeparator c = true)
    (rest : List Char) : cut (blanks ++ rest) = cut rest := by
  induction blanks with
  | nil => rfl
  | cons c blanks ih =>
      obtain ⟨here, others⟩ := List.forall_mem_cons.mp separators
      rw [List.cons_append, cut_separator here, ih others]

theorem isSeparator_newLine (level : Nat) : ∀ c ∈ (newLine level).toList, isSeparator c = true := by
  rw [newLine, String.toList_ofList, List.forall_mem_cons]
  refine ⟨rfl, ?_⟩
  intro c member
  rw [List.eq_of_mem_replicate member]
  rfl

theorem cut_number (n : Nat) {rest : List Char} (ends : ∀ c ∈ rest.head?, c.isDigit = false) :
    cut ((toString n).toList ++ rest) = (cut rest).map (.number n :: ·) := by
  have digits : ∀ c ∈ (toString n).toList, c.isDigit = true := by
    rw [Nat.toString_eq_repr, Nat.toList_repr]
    intro c member
    exact Nat.isDigit_of_mem_toDigits (by omega) (by omega) member
  have value : Numeral.decimal (toString n).toList = n := by
    rw [Nat.toString_eq_repr, Nat.toList_repr, Numeral.decimal, Numeral.ofDigits, List.foldl_map]
    exact Nat.ofDigitChars_toDigits (by omega) (by omega)
  cases whole : (toString n).toList with
  | nil => simp [Nat.toString_eq_repr, Nat.toList_repr] at whole
  | cons c more =>
      rw [whole] at digits value
      obtain ⟨digit, inside⟩ := List.forall_mem_cons.mp digits
      rw [List.cons_append, cut, if_neg (by simp [isSeparator_of_isDigit digit]), if_pos digit,
        Piece.takeWhile_append inside ends, Piece.dropWhile_append inside ends, value]

theorem cut_quote (text : String) (rest : List Char) :
    cut ((quote text).toList ++ rest) = (cut rest).map (.string text :: ·) := by
  rw [quote, String.toList_ofList, List.append_assoc, List.cons_append, List.singleton_append, cut,
    if_neg (by decide), if_neg (by decide), if_pos rfl]
  split
  · rename_i body after read
    rw [unquote_append] at read
    cases read
    rw [String.ofList_toList]
  · rename_i read
    rw [unquote_append] at read
    cases read

theorem Lexeme.plain_of_bracket {c : Char} {bracket : Lexeme} (known : ofBracket? c = some bracket) :
    isSeparator c = false ∧ c.isDigit = false ∧ c ≠ '"' := by
  unfold ofBracket? at known
  split at known
  · decide
  · decide
  · decide
  · decide
  · cases known

theorem cut_bracket {c : Char} {bracket : Lexeme} (known : Lexeme.ofBracket? c = some bracket)
    (rest : List Char) : cut (c :: rest) = (cut rest).map (bracket :: ·) := by
  obtain ⟨separator, digit, quote⟩ := Lexeme.plain_of_bracket known
  rw [cut, if_neg (by simp [separator]), if_neg (by simp [digit]), if_neg quote, known, Option.bind_some]

/-! ## Values -/

mutual

def lexemes : Json → List Lexeme
  | .number value => [.number value]
  | .string text => [.string text]
  | .array items => .openArray :: itemLexemes items ++ [.closeArray]
  | .object fields => .openObject :: fieldLexemes fields ++ [.closeObject]

def itemLexemes : List Json → List Lexeme
  | [] => []
  | item :: rest => item.lexemes ++ itemLexemes rest

def fieldLexemes : List (String × Json) → List Lexeme
  | [] => []
  | (key, value) :: rest => .string key :: value.lexemes ++ fieldLexemes rest

end

/-- An array or object that is still open, with what it holds so far. An object may wait for the value of a
key. -/
inductive Frame where
  | array (items : List Json)
  | object (fields : List (String × Json)) (key? : Option String)
deriving Repr

/-- Puts a value into the innermost open array or object. -/
def place (value : Json) : List Frame → Option (List Frame)
  | .array items :: outer => some (.array (items ++ [value]) :: outer)
  | .object fields (some key) :: outer => some (.object (fields ++ [(key, value)]) none :: outer)
  | .object fields none :: outer =>
      match value with
      | .string key => some (.object fields (some key) :: outer)
      | _ => none
  | [] => none

def step (frames : List Frame) (lexeme : Lexeme) : Option (List Frame) :=
  match lexeme with
  | .openArray => some (.array [] :: frames)
  | .openObject => some (.object [] none :: frames)
  | .number value => place (.number value) frames
  | .string text => place (.string text) frames
  | .closeArray =>
      match frames with
      | .array items :: outer => place (.array items) outer
      | _ => none
  | .closeObject =>
      match frames with
      | .object fields none :: outer => place (.object fields) outer
      | _ => none

def read (text : String) : Option Json := do
  match ← (← cut text.toList).foldlM step [.array []] with
  | [.array [value]] => some value
  | _ => none

-- The lexemes of a value do as much to the open frames as the whole value does.
mutual

theorem foldlM_lexemes : (value : Json) → (frames : List Frame) →
    value.lexemes.foldlM step frames = place value frames
  | .number value, frames => by simp [lexemes, step]
  | .string text, frames => by simp [lexemes, step]
  | .array items, frames => by
      simp [lexemes, step, foldlM_itemLexemes items [] frames]
  | .object fields, frames => by
      simp [lexemes, step, foldlM_fieldLexemes fields [] frames]

theorem foldlM_itemLexemes : (items front : List Json) → (outer : List Frame) →
    (itemLexemes items).foldlM step (.array front :: outer) = some (.array (front ++ items) :: outer)
  | [], front, outer => by simp [itemLexemes]
  | item :: rest, front, outer => by
      rw [itemLexemes, List.foldlM_append, foldlM_lexemes item]
      simp [place, foldlM_itemLexemes rest]

theorem foldlM_fieldLexemes : (fields front : List (String × Json)) → (outer : List Frame) →
    (fieldLexemes fields).foldlM step (.object front none :: outer) =
      some (.object (front ++ fields) none :: outer)
  | [], front, outer => by simp [fieldLexemes]
  | (key, value) :: rest, front, outer => by
      simp [fieldLexemes, step, place, foldlM_lexemes value, foldlM_fieldLexemes rest]

end

/-! ## The indented layout -/

/-- The text is cut into the lexemes wherever it stands, unless a digit follows. -/
def CutsTo (text : List Char) (front : List Lexeme) : Prop :=
  ∀ rest later, (∀ c ∈ rest.head?, c.isDigit = false) → cut rest = some later →
    cut (text ++ rest) = some (front ++ later)

namespace CutsTo

variable {text more : List Char} {front back : List Lexeme}

theorem nothing : CutsTo [] [] := by
  intro rest later _ read
  exact read

theorem number (n : Nat) : CutsTo (toString n).toList [.number n] := by
  intro rest later ends read
  rw [cut_number n ends, read]
  rfl

theorem quote (string : String) : CutsTo (Json.quote string).toList [.string string] := by
  intro rest later _ read
  rw [cut_quote, read]
  rfl

theorem onNewLine (inner : CutsTo text front) (level : Nat) :
    CutsTo ((newLine level).toList ++ text) front := by
  intro rest later ends read
  rw [List.append_assoc, cut_separators (isSeparator_newLine level)]
  exact inner rest later ends read

theorem comma (inner : CutsTo text front) (next : CutsTo more back) :
    CutsTo (text ++ ',' :: more) (front ++ back) := by
  intro rest later ends read
  rw [List.append_assoc, List.append_assoc]
  apply inner
  · simp
  · rw [List.cons_append, cut_separator rfl]
    exact next rest later ends read

theorem field (inner : CutsTo text front) (key : String) :
    CutsTo ((Json.quote key).toList ++ (':' :: ' ' :: text)) (.string key :: front) := by
  intro rest later ends read
  rw [List.append_assoc, cut_quote, List.cons_append, List.cons_append, cut_separator rfl, cut_separator rfl,
    inner rest later ends read]
  rfl

theorem bracketed (left right : Char) {opening closing : Lexeme}
    (opens : Lexeme.ofBracket? left = some opening) (closes : Lexeme.ofBracket? right = some closing)
    {blanks : List Char} (separators : ∀ c ∈ blanks, isSeparator c = true) (inner : CutsTo text front) :
    CutsTo (left :: text ++ (blanks ++ [right])) (opening :: front ++ [closing]) := by
  intro rest later _ read
  have closed : cut (blanks ++ right :: rest) = some (closing :: later) := by
    rw [cut_separators separators, cut_bracket closes, read, Option.map_some]
  have ends : ∀ c ∈ (blanks ++ right :: rest).head?, c.isDigit = false := by
    cases blanks with
    | nil =>
        rintro c ⟨⟩
        exact (Lexeme.plain_of_bracket closes).2.1
    | cons d blanks =>
        rintro c ⟨⟩
        by_contra digit
        have other := isSeparator_of_isDigit (eq_true_of_ne_false digit)
        rw [separators d List.mem_cons_self] at other
        cases other
  have whole : cut (left :: (text ++ (blanks ++ right :: rest))) = some (opening :: (front ++ closing :: later)) := by
    rw [cut_bracket opens, inner _ _ ends closed, Option.map_some]
  simpa using whole

end CutsTo

mutual

theorem cutsTo_prettyPieces : (level : Nat) → (value : Json) →
    CutsTo ((prettyPieces level value).flatMap String.toList) value.lexemes
  | level, .number n => by
      rw [prettyPieces, List.flatMap_singleton]
      exact .number n
  | level, .string text => by
      rw [prettyPieces, List.flatMap_singleton]
      exact .quote text
  | level, .array [] => by
      rw [prettyPieces, lexemes, itemLexemes]
      exact CutsTo.nothing.bracketed '[' ']' rfl rfl (List.forall_mem_nil _)
  | level, .array (item :: more) => by
      have inner := cutsTo_prettyItems (level + 1) (item :: more)
      rw [prettyPieces, lexemes]
      · simpa using inner.bracketed '[' ']' rfl rfl (isSeparator_newLine level)
      · simp
  | level, .object [] => by
      rw [prettyPieces, lexemes, fieldLexemes]
      exact CutsTo.nothing.bracketed '{' '}' rfl rfl (List.forall_mem_nil _)
  | level, .object (field :: more) => by
      have inner := cutsTo_prettyFields (level + 1) (field :: more)
      rw [prettyPieces, lexemes]
      · simpa using inner.bracketed '{' '}' rfl rfl (isSeparator_newLine level)
      · simp

theorem cutsTo_prettyItems : (level : Nat) → (items : List Json) →
    CutsTo ((prettyItems level items).flatMap String.toList) (itemLexemes items)
  | level, [] => by
      rw [prettyItems, itemLexemes]
      exact .nothing
  | level, [item] => by
      have inner := (cutsTo_prettyPieces level item).onNewLine level
      rw [prettyItems, List.flatMap_cons, itemLexemes, itemLexemes, List.append_nil]
      exact inner
  | level, item :: next :: more => by
      have inner := (cutsTo_prettyPieces level item).onNewLine level
      have whole := inner.comma (cutsTo_prettyItems level (next :: more))
      rw [prettyItems, itemLexemes]
      · simpa using whole
      · simp

theorem cutsTo_prettyFields : (level : Nat) → (fields : List (String × Json)) →
    CutsTo ((prettyFields level fields).flatMap String.toList) (fieldLexemes fields)
  | level, [] => by
      rw [prettyFields, fieldLexemes]
      exact .nothing
  | level, [(key, value)] => by
      have inner := ((cutsTo_prettyPieces level value).field key).onNewLine level
      rw [prettyFields, fieldLexemes, fieldLexemes]
      simpa using inner
  | level, (key, value) :: next :: more => by
      have inner := ((cutsTo_prettyPieces level value).field key).onNewLine level
      have whole := inner.comma (cutsTo_prettyFields level (next :: more))
      rw [prettyFields, fieldLexemes]
      · simpa using whole
      · simp

end

theorem cut_pretty (value : Json) : cut value.pretty.toList = some value.lexemes := by
  have whole := cutsTo_prettyPieces 0 value [] [] (by simp) (by rw [cut])
  rwa [List.append_nil, List.append_nil, ← String.toList_join] at whole

theorem read_pretty (value : Json) : read value.pretty = some value := by
  simp [read, cut_pretty, foldlM_lexemes, place]

end Jack.Json
