import Jack.Proofs.Grammar.Completion
import Jack.Proofs.Parse.FirstError

/-!
# What was expected could have followed

A source that breaks the grammar at a token is the start of a class up to there, and it stays one with any
of the kinds that were expected in the place of the token.
-/

namespace Jack

def termKinds : List Kind :=
  [.intConst, .strConst, .keyword .true, .keyword .false, .keyword .null, .keyword .this, .ident,
    .symbol .lParen, .symbol .minus, .symbol .tilde]

/-- The kinds that the violation asks for in the place of the token found. -/
def Violation.expected : Violation → List Kind
  | .unexpected kinds => kinds
  | .termExpected => termKinds
  | .tooDeep _ => []

namespace Phrase

/-- Every refusal in the phrase asks for kinds that begin an alternative before it; those of `passed` begin
one before the phrase. -/
def candid (passed : List Kind) : Phrase → Bool
  | .nothing => true
  | .refuse violation => !violation.expected.isEmpty && violation.expected.all (· ∈ passed)
  | .token kinds => !kinds.isEmpty
  | .rule _ => true
  | .andThen front back => front.candid [] && back.candid []
  | .choose kinds chosen otherwise =>
      chosen.candid [] && otherwise.candid (passed ++ kinds.filter (· ∈ chosen.first))
  | .many _ round => round.candid []
  | .noted _ body => body.candid []

/-- A violation that stopped a run from `c` at `d`, before the token `found`, is true to the phrase. -/
structure Honest (phrase : Phrase) (passed : List Kind) (c d : Cursor) (violation : Violation)
    (found : Token) : Prop where
  asks : (∀ n, violation ≠ .tooDeep n) → violation.expected ≠ []
  foreign : found.kind ∉ violation.expected
  welcome : ∃ tokens, c.Passes tokens d ∧ ∀ kind ∈ violation.expected,
    phrase.Begins (tokens.map Token.kind ++ [kind]) ∨ tokens = [] ∧ kind ∈ passed

variable {front back whole : Phrase} {passed others : List Kind} {c d e : Cursor} {violation : Violation}
  {found : Token}

theorem honest_tooDeep (phrase : Phrase) (c : Cursor) (limit : Nat) (found : Token) :
    phrase.Honest passed c c (.tooDeep limit) found where
  asks := fun grammatical => absurd rfl (grammatical limit)
  foreign := by simp [Violation.expected]
  welcome := ⟨[], .refl c, by simp [Violation.expected]⟩

theorem honest_refuse (candid : (Phrase.refuse violation).candid passed = true)
    (foreign : c.peek.kind ∉ passed) : (Phrase.refuse violation).Honest passed c c violation c.peek := by
  simp only [Phrase.candid, Bool.and_eq_true, Bool.not_eq_true', List.isEmpty_eq_false_iff,
    List.all_eq_true, decide_eq_true_eq] at candid
  obtain ⟨asks, known⟩ := candid
  exact {
    asks := fun _ => asks
    foreign := fun member => foreign (known _ member)
    welcome := ⟨[], .refl c, fun kind member => Or.inr ⟨rfl, known kind member⟩⟩ }

theorem honest_missed {kinds : List Kind} (candid : (Phrase.token kinds).candid passed = true)
    (foreign : c.peek.kind ∉ kinds) :
    (Phrase.token kinds).Honest passed c c (.unexpected kinds) c.peek where
  asks := fun _ => by simpa [Phrase.candid, Violation.expected] using candid
  foreign := foreign
  welcome := ⟨[], .refl c, fun kind member => Or.inl (begins_of_mem_first rfl member)⟩

theorem Honest.mono (honest : front.Honest passed c d violation found)
    (begins : ∀ kinds, front.Begins kinds → whole.Begins kinds)
    (account : ∀ kind ∈ passed, whole.Begins [kind] ∨ kind ∈ others) :
    whole.Honest others c d violation found where
  asks := honest.asks
  foreign := honest.foreign
  welcome := by
    obtain ⟨tokens, passes, welcome⟩ := honest.welcome
    refine ⟨tokens, passes, ?_⟩
    intro kind member
    rcases welcome kind member with starts | ⟨rfl, early⟩
    · exact Or.inl (begins _ starts)
    · rcases account kind early with starts | late
      · exact Or.inl starts
      · exact Or.inr ⟨rfl, late⟩

theorem Honest.after {tokens : List Token} (later : back.Honest [] d e violation found)
    (join : ∀ {left right}, front.Spells left → back.Spells right → whole.Spells (left ++ right))
    (yields : front.Yields tokens) (passes : c.Passes tokens d) :
    whole.Honest passed c e violation found where
  asks := later.asks
  foreign := later.foreign
  welcome := by
    obtain ⟨more, passes', welcome⟩ := later.welcome
    refine ⟨tokens ++ more, passes.trans passes', ?_⟩
    intro kind member
    rcases welcome kind member with starts | ⟨_, none⟩
    · rw [List.map_append, List.append_assoc]
      exact Or.inl (starts.after join yields)
    · cases none

theorem Sound.yields {phrase : Phrase} {o : Outcome} (sound : phrase.Sound c o)
    (success : o.failure? = none) : phrase.Yields (Forest.tokens o.nodes) :=
  ⟨o.nodes, sound.spells success, sound.derived success, rfl⟩

theorem Runs.honest {visit : Rule → Cursor → Visit} (sound : RulesSound visit)
    (rules : ∀ r k c, c.Closed → ((visit r c).toOutcome k).failure? = some (.grammar violation found) →
      (Phrase.rule r).Honest [] c ((visit r c).toOutcome k).cursor violation found)
    {phrase : Phrase} {k : Locals} {o : Outcome} (runs : Runs visit phrase k c o) (closed : c.Closed)
    (real : .eof ∉ phrase.kindsRead) (completable : phrase.completable = true)
    (candid : phrase.candid passed = true) (foreign : c.peek.kind ∉ passed)
    (failure : o.failure? = some (.grammar violation found)) :
    phrase.Honest passed c o.cursor violation found := by
  induction runs generalizing passed with
  | nothing | read | done => cases failure
  | refuse v k c =>
      cases failure
      exact honest_refuse candid foreign
  | missed missing =>
      cases failure
      exact honest_missed candid missing
  | rule r k c => exact (rules r k c closed failure).mono (fun _ => id) (by simp)
  | cut _ _ ih =>
      simp only [Phrase.completable, Phrase.candid, Bool.and_eq_true] at completable candid
      have honest := ih closed (fun member => real (List.mem_append_left _ member)) completable.1.1
        candid.1 (by simp) failure
      exact honest.mono (fun _ starts => starts.andThen completable.2) (by simp)
  | andThen first success _ _ ihSecond =>
      simp only [Phrase.completable, Phrase.candid, Bool.and_eq_true] at completable candid
      have sound' := first.sound sound closed (fun member => real (List.mem_append_left _ member))
      have passes := sound'.tokens success
      have honest := ihSecond (passes.closed closed) (fun member => real (List.mem_append_right _ member))
        completable.1.2 candid.2 (by simp) failure
      exact honest.after .andThen (sound'.yields success) passes
  | chosen _ _ ih =>
      simp only [Phrase.completable, Phrase.candid, Bool.and_eq_true] at completable candid
      have honest := ih closed (fun member => real (List.mem_append_left _ member)) completable.1
        candid.1 (by simp) failure
      exact honest.mono (fun _ starts => starts.mono .chosen) (by simp)
  | @otherwise kinds chosen otherwise k c o missing _ ih =>
      simp only [Phrase.completable, Phrase.candid, Bool.and_eq_true] at completable candid
      have honest := ih closed (fun member => real (List.mem_append_right _ member)) completable.2
        candid.2 (by simp [foreign, missing]) failure
      refine honest.mono (fun _ starts => starts.mono .otherwise) ?_
      -- The kinds that the choice looked for begin the alternative that it passed over.
      intro kind member
      rcases List.mem_append.mp member with before | here
      · exact Or.inr before
      · have begins : kind ∈ chosen.first := of_decide_eq_true (List.mem_filter.mp here).2
        exact Or.inl ((begins_of_mem_first completable.1 begins).mono .chosen)
  | last _ _ _ ih =>
      have honest := ih closed real completable candid (by simp) failure
      exact honest.mono (fun _ starts => starts.many _) (by simp)
  | again _ first success _ _ _ ihRest =>
      have sound' := first.sound sound closed real
      have passes := sound'.tokens success
      have honest : Honest _ [] _ _ _ _ :=
        ihRest (passes.closed closed) real completable candid (by simp) failure
      exact honest.after .again (sound'.yields success) passes
  | noted _ ih =>
      rw [Outcome.failure?_noted] at failure
      rw [Outcome.cursor_noted]
      have honest := ih closed real completable candid (by simp) failure
      exact honest.mono (fun _ starts => starts.mono .noted) (by simp)

end Phrase

namespace Rule

theorem candid_body (rule : Rule) : rule.body.candid [] = true := by
  cases rule <;> decide

theorem visit_honest (limit room : Nat) (rule : Rule) (k : Locals) (c : Cursor) {violation : Violation}
    {found : Token} (closed : c.Closed)
    (failure : ((rule.visit limit room c).toOutcome k).failure? = some (.grammar violation found)) :
    (Phrase.rule rule).Honest [] c ((rule.visit limit room c).toOutcome k).cursor violation found := by
  induction room generalizing rule k c with
  | zero =>
      cases failure
      exact Phrase.honest_tooDeep _ c limit c.peek
  | succ room ih =>
      rw [visit, Visit.toOutcome_enclose] at failure ⊢
      have honest := (Phrase.runs_run (Rule.visit limit room) rule.body {} c).honest
        (visit_sound limit room) ih closed rule.eof_not_mem_kindsRead rule.completable_body
        rule.candid_body (by simp) failure
      exact honest.mono (fun _ starts => starts.rule) (by simp)

end Rule

theorem parseClass_expected (tokens : List Token) (endOffset endLine limit : Nat) (violation : Violation)
    (found : Token) (grammatical : ∀ n, violation ≠ .tooDeep n)
    (failed : (parseClass limit (.ofTokens tokens endOffset endLine)).result =
      .error (.grammar violation found)) :
    let read := tokens.take ((parseClass limit (.ofTokens tokens endOffset endLine)).readOf tokens)
    found.kind ∉ violation.expected ∧
      (∀ kind ∈ violation.expected, Rule.class.Begins (read.map Token.kind ++ [kind])) ∧
      Rule.class.Begins (read.map Token.kind) := by
  obtain ⟨read, rest, rfl, _, unread, count⟩ := parseClass_failed failed
  have honest := Rule.class.visit_honest limit limit {} _ (Cursor.closed_atStart _ _ _)
    (Visit.result_eq_error_iff.mp failed)
  obtain ⟨passed, passes, welcome⟩ := honest.welcome
  have same : read = passed := by
    have split := passes.unread
    rw [Visit.cursor_toOutcome] at split
    exact List.append_cancel_right (split.trans (congrArg (passed ++ ·) unread))
  have begins : ∀ kind ∈ violation.expected, Rule.class.Begins (read.map Token.kind ++ [kind]) := by
    intro kind member
    rcases welcome kind member with starts | ⟨_, none⟩
    · exact same ▸ Rule.begins_of_phrase starts
    · cases none
  rw [count, List.take_left]
  refine ⟨honest.foreign, begins, ?_⟩
  obtain ⟨kind, member⟩ := List.exists_mem_of_ne_nil _ (honest.asks grammatical)
  exact (begins kind member).of_append

/-- `class A { function void f() { return -; } }`, which lacks a term after the minus sign. -/
def missingTermSource : List Token := negationSource.eraseIdx 11

theorem parseClass_expected_missingTerm :
    .symbol .semicolon ∉ termKinds ∧
      (∀ kind ∈ termKinds, Rule.class.Begins ((missingTermSource.take 11).map Token.kind ++ [kind])) ∧
      Rule.class.Begins ((missingTermSource.take 11).map Token.kind) := by
  have failed : (parseClass 8 (.ofTokens missingTermSource 0 1)).result =
      .error (.grammar .termExpected (.bare (.symbol .semicolon))) :=
    Visit.result_eq_error_iff.mpr (by decide +kernel)
  have count : (parseClass 8 (.ofTokens missingTermSource 0 1)).readOf missingTermSource = 11 := by
    decide +kernel
  have expected := parseClass_expected missingTermSource 0 1 8 _ _ (by simp) failed
  rw [count] at expected
  exact expected

end Jack
