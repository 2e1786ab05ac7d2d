import Jack.Proofs.Token.Lossless

/-!
# Scanning undoes writing

Words that are written one after the other, with a separator between any two, scan to tokens of the same
kinds and lexemes, each at the place where it was written.
-/

namespace Jack

/-- A token without its place. -/
structure Word where
  kind : Kind
  lexeme : String
deriving DecidableEq, Repr

def Token.word (token : Token) : Word := ⟨token.kind, token.lexeme⟩

namespace Word

def written (word : Word) : List Char :=
  match word.kind with
  | .strConst => '"' :: word.lexeme.toList ++ ['"']
  | _ => word.lexeme.toList

def WellFormed (word : Word) : Prop := Spelling word.kind word.lexeme.toList word.written

end Word

theorem Spelling.written_eq {kind : Kind} {lexeme : String} {text : List Char}
    (spelling : Spelling kind lexeme.toList text) : (Word.mk kind lexeme).written = text := by
  generalize same : lexeme.toList = letters at spelling
  cases spelling with
  | fixed known =>
      cases kind with
      | keyword | symbol => exact same
      | intConst | strConst | ident | eof => cases known
  | integer _ _ _ => exact same
  | string _ => simp [Word.written, same]
  | name _ _ _ => exact same

/-! ## Separators -/

/-- Blanks and comments with their ends, so that anything may follow. -/
inductive Filler : List Char → Prop where
  | nothing : Filler []
  | blank {c : Char} {text : List Char} (blank : isBlank c = true) (more : Filler text) : Filler (c :: text)
  | lineComment {body text : List Char} (inLine : '\n' ∉ body) (more : Filler text) :
      Filler ('/' :: '/' :: body ++ '\n' :: text)
  | blockComment {body text : List Char} (closes : CommentInterior body) (more : Filler text) :
      Filler ('/' :: '*' :: body ++ '*' :: '/' :: text)

inductive Separator : List Char → Prop where
  | separator {c : Char} {text : List Char} (blank : isBlank c = true) (more : Filler text) :
      Separator (c :: text)

theorem Filler.gap {text gap after : List Char} (filler : Filler text) (more : Gap gap after) :
    Gap (text ++ gap) after := by
  induction filler with
  | nothing => exact more
  | blank blank _ ih => exact .blank blank ih
  | @lineComment body text inLine _ ih =>
      have line : Gap ('/' :: '/' :: body ++ '\n' :: (text ++ gap)) after :=
        .lineComment inLine (by simp) (.blank rfl ih)
      simpa using line
  | @blockComment body text closes _ ih =>
      have block : Gap ('/' :: '*' :: body ++ '*' :: '/' :: (text ++ gap)) after := .blockComment closes ih
      simpa using block

theorem Separator.gap {text gap after : List Char} (separator : Separator text) (more : Gap gap after) :
    Gap (text ++ gap) after := by
  cases separator with
  | separator blank filler => exact .blank blank (filler.gap more)

theorem Kind.complete_nil (kind : Kind) : kind.Complete [] := by
  unfold Complete
  split <;> simp

theorem Kind.complete_blank {c : Char} (blank : isBlank c = true) (kind : Kind) (rest : List Char) :
    kind.Complete (c :: rest) := by
  have foreign : isWordChar c = false ∧ c.isDigit = false ∧ c ≠ '/' ∧ c ≠ '*' := by
    rcases isBlank_eq_true.mp blank with rfl | rfl | rfl | rfl | rfl <;> decide
  unfold Complete
  split <;> simp [foreign]

theorem Separator.complete {text : List Char} (separator : Separator text) (kind : Kind)
    (rest : List Char) : kind.Complete (text ++ rest) := by
  cases separator with
  | separator blank _ => exact kind.complete_blank blank _

/-! ## Writing -/

namespace Word

/-- The words in turn; the separator that is numbered `i` stands after the word that is numbered `i`. -/
def write (separators : Nat → List Char) : List Word → List Char
  | [] => []
  | [word] => word.written
  | word :: rest => word.written ++ separators 0 ++ write (fun i => separators (i + 1)) rest

/-- The tokens of words that are written behind `before`. -/
def tokensAfter (separators : Nat → List Char) (before : List Char) : List Word → List Token
  | [] => []
  | word :: rest =>
      ⟨word.kind, word.lexeme, (String.ofList before).utf8ByteSize,
        (String.ofList (before ++ word.written)).utf8ByteSize, 1 + before.count '\n'⟩ ::
        tokensAfter (fun i => separators (i + 1)) (before ++ word.written ++ separators 0) rest

theorem map_word_tokensAfter (separators : Nat → List Char) (before : List Char) (words : List Word) :
    (tokensAfter separators before words).map Token.word = words := by
  induction words generalizing separators before with
  | nil => rfl
  | cons word rest ih =>
      rw [tokensAfter, List.map_cons, ih]
      rfl

theorem layout_word {place : Position} {word : Word} {after : List Char} {tokens : List Token}
    (wellFormed : word.WellFormed) (complete : word.kind.Complete after)
    (more : Layout (place.past word.written) after tokens) :
    Layout place (word.written ++ after)
      (⟨word.kind, word.lexeme, place.cover word.written⟩ :: tokens) := by
  have laid := Layout.token (.nothing _) wellFormed complete (by rw [Position.past_nil]; exact more)
  rwa [Position.past_nil, List.nil_append, String.ofList_toList] at laid

theorem layout_write {separators : Nat → List Char} {words : List Word} (before : List Char)
    (wellFormed : ∀ word ∈ words, word.WellFormed)
    (separated : ∀ i, i + 1 < words.length → Separator (separators i)) :
    Layout (Position.start.past before) (write separators words) (tokensAfter separators before words) := by
  induction words generalizing separators before with
  | nil => exact .done (.nothing [])
  | cons word rest ih =>
      obtain ⟨here, others⟩ := List.forall_mem_cons.mp wellFormed
      cases rest with
      | nil =>
          have nothing : Layout ((Position.start.past before).past word.written) [] [] := .done (.nothing [])
          have last := layout_word here word.kind.complete_nil nothing
          rwa [List.append_nil, cover_past_start] at last
      | cons next rest =>
          -- The separator begins with a blank, so the word before it is complete whatever comes next.
          have separator := separated 0 (by simp)
          have later := ih (before ++ word.written ++ separators 0) others
            (fun i bound => separated (i + 1) (by simpa using bound))
          rw [Position.past_append, Position.past_append] at later
          rw [write, tokensAfter, List.append_assoc, ← cover_past_start]
          · exact layout_word here (separator.complete _ _)
              (later.after_gap fun gap after _ apart => separator.gap apart)
          · simp

end Word

namespace Token

theorem wellFormed_of_scan {source : String} {tokens : List Token} (scanned : scan source = .ok tokens) :
    ∀ word ∈ tokens.map Token.word, word.WellFormed := by
  intro word member
  obtain ⟨token, member', rfl⟩ := List.mem_map.mp member
  obtain ⟨before, text, after, _, _, spelling, _⟩ := (scanFrom_eq_ok_iff.mp scanned).exists_split member'
  rw [Word.WellFormed, word, spelling.written_eq]
  exact spelling

theorem separator_space : Separator [' '] := .separator rfl .nothing

theorem scan_write :
    (∀ (words : List Word) (separators : Nat → List Char), (∀ word ∈ words, word.WellFormed) →
      (∀ i, i + 1 < words.length → Separator (separators i)) →
      scan (String.ofList (Word.write separators words)) = .ok (Word.tokensAfter separators [] words)) ∧
    ∀ (source : String) (tokens : List Token), scan source = .ok tokens →
      ∃ again, scan (String.ofList (Word.write (fun _ => [' ']) (tokens.map Token.word))) = .ok again ∧
        again.map Token.word = tokens.map Token.word := by
  have writes : ∀ (words : List Word) (separators : Nat → List Char), (∀ word ∈ words, word.WellFormed) →
      (∀ i, i + 1 < words.length → Separator (separators i)) →
      scan (String.ofList (Word.write separators words)) = .ok (Word.tokensAfter separators [] words) := by
    intro words separators wellFormed separated
    have layout := Word.layout_write [] wellFormed separated
    rw [scan, String.toList_ofList]
    rw [Position.past_nil] at layout
    exact scanFrom_eq_ok_iff.mpr layout
  refine ⟨writes, ?_⟩
  intro source tokens scanned
  exact ⟨_, writes _ _ (wellFormed_of_scan scanned) (fun _ _ => separator_space),
    Word.map_word_tokensAfter _ _ _⟩

/-- `let lets "/*ü"` -/
def fewWords : List Word := [⟨.keyword .let, "let"⟩, ⟨.ident, "lets"⟩, ⟨.strConst, "/*ü"⟩]

def fewComments : Nat → List Char
  | 0 => [' ', '/', '*', 'é', '*', '*', '/']
  | _ => ['\t', '/', '/', '"', '\n']

theorem scan_write_fewWords :
    scan "let /*é**/lets\t//\"\n\"/*ü\"" = .ok [⟨.keyword .let, "let", ⟨0, 3, 1⟩⟩,
      ⟨.ident, "lets", ⟨11, 15, 1⟩⟩, ⟨.strConst, "/*ü", ⟨20, 26, 2⟩⟩] ∧
    ∃ again, scan "let lets \"/*ü\"" = .ok again ∧ again.map Token.word = fewWords := by
  have wellFormed : ∀ word ∈ fewWords, word.WellFormed := by
    have name : "lets".toList = ['l', 'e', 't', 's'] := by decide +kernel
    have string : "/*ü".toList = ['/', '*', 'ü'] := by decide +kernel
    have noKeyword : ∀ keyword : Keyword, keyword.text.toList ≠ ['l', 'e', 't', 's'] := by
      intro keyword
      cases keyword <;> decide +kernel
    simp only [fewWords, List.forall_mem_cons, Word.WellFormed, Word.written, name, string]
    exact ⟨.fixed rfl, .name rfl (List.all_eq_true.mp rfl) noKeyword, .string (by simp), by simp⟩
  have separated : ∀ i, i + 1 < fewWords.length → Separator (fewComments i) := by
    intro i _
    cases i with
    | zero =>
        have comment : Filler ('/' :: '*' :: ['é', '*'] ++ '*' :: '/' :: []) :=
          .blockComment (by unfold CommentInterior; decide) .nothing
        exact .separator rfl comment
    | succ i =>
        have comment : Filler ('/' :: '/' :: ['"'] ++ '\n' :: []) := .lineComment (by decide) .nothing
        exact .separator rfl comment
  have scanned := scan_write.1 fewWords fewComments wellFormed separated
  have text : String.ofList (Word.write fewComments fewWords) = "let /*é**/lets\t//\"\n\"/*ü\"" := by
    decide +kernel
  have tokens : Word.tokensAfter fewComments [] fewWords = [⟨.keyword .let, "let", ⟨0, 3, 1⟩⟩,
      ⟨.ident, "lets", ⟨11, 15, 1⟩⟩, ⟨.strConst, "/*ü", ⟨20, 26, 2⟩⟩] := by decide +kernel
  rw [text, tokens] at scanned
  obtain ⟨again, scanned', same⟩ := scan_write.2 _ _ scanned
  exact ⟨scanned, again, scanned', same⟩

end Token

end Jack
