import Jack.Proofs.Parse.Counter
import Jack.Proofs.Parse.FirstError

/-!
# Sources that are cut off

A class is read without a look at what follows its closing brace, and an error is found without a look at
what follows the token it is found at. So a source that is cut off before one of these tokens can only fail
where it was cut off.
-/

namespace Jack

namespace Phrase

/-- The phrase ends in a token of its own. -/
def closing : Phrase → Bool
  | .token _ => true
  | .andThen _ back => back.closing
  | _ => false

theorem nullable_of_closing {phrase : Phrase} (closing : phrase.closing = true) :
    phrase.nullable = false := by
  induction phrase with
  | token kinds => rfl
  | andThen front back _ ihBack => rw [nullable, ihBack closing, Bool.and_false]
  | _ => cases closing

-- Whatever comes before the last token is read in view of that token, and the token itself in view of none.
theorem Runs.of_closing {visit : Rule → Cursor → Visit} (sound : RulesSound visit)
    (rules : RulesLocal visit) {phrase : Phrase} {k : Locals} {c : Cursor} {o : Outcome}
    (runs : Runs visit phrase k c o) (closed : c.Closed) (real : .eof ∉ phrase.kindsRead)
    (closing : phrase.closing = true) (success : o.failure? = none) {d : Cursor} {other : List Token}
    (unread : d.unread = Forest.tokens o.nodes ++ other) :
    ∃ p, Runs visit phrase k d p ∧ p.nodes = o.nodes ∧ p.journal = o.journal ∧ p.failure? = none := by
  induction runs generalizing d with
  | @read kinds k c member =>
      have peek : d.peek = c.peek := by
        rw [Cursor.peek_eq, unread]
        rfl
      exact ⟨_, .read (by rw [peek]; exact member), by simp [Outcome.token, peek], rfl, rfl⟩
  | @andThen front back k c o later first done second _ ihSecond =>
      have realFront := fun member => real (List.mem_append_left _ member)
      have realBack := fun member => real (List.mem_append_right _ member)
      have passes := (first.sound sound closed realFront).tokens done
      have sound' := second.sound sound (passes.closed closed) realBack
      have passes' := sound'.tokens success
      have solid : back.nullable = false := nullable_of_closing closing
      obtain ⟨token, more, cons⟩ : ∃ token more, Forest.tokens later.nodes = token :: more := by
        rcases (sound'.spells success).opens_derived (sound'.derived success) with
          ⟨_, empty⟩ | ⟨token, more, cons, _⟩
        · rw [solid] at empty
          cases empty
        · exact ⟨token, more, cons⟩
      have alike : c.Alike o.cursor.unread (Forest.tokens later.nodes ++ other) d := by
        refine ⟨⟨Forest.tokens o.nodes, passes.unread, ?_⟩, ?_⟩
        · rw [unread, Outcome.append, Forest.tokens_append, List.append_assoc]
        · rw [passes'.unread, cons]
          rfl
      obtain ⟨p, runs, same⟩ := first.alike sound rules closed realFront alike (List.suffix_refl _)
      obtain ⟨between, before, after⟩ := same.cursor.split
      obtain rfl : between = [] := List.self_eq_append_left.mp before
      obtain ⟨q, runs', nodes, journal, done'⟩ :=
        ihSecond (passes.closed closed) realBack closing success after
      rw [← same.locals] at runs'
      refine ⟨_, .andThen runs (same.failure.trans done) runs', ?_, ?_, done'⟩
      · simp only [Outcome.append, same.nodes, nodes]
      · simp only [Outcome.append, same.journal, journal]
  | missed => cases success
  | cut _ failure =>
      rw [failure] at success
      cases success
  | _ => cases closing

end Phrase

theorem Rule.closing_class : Rule.class.body.closing = true := by decide

variable {limit endOffset endLine : Nat} {tokens : List Token}

theorem Outcome.result_enclose_eq_ok {rule : Rule} {first : Token} {o : Outcome} {tree : Node} :
    (o.enclose rule first).result = .ok tree ↔ o.failure? = none ∧ .branch rule o.nodes = tree := by
  unfold enclose
  cases o.failure? <;> simp

theorem Outcome.calls_enclose (rule : Rule) (first : Token) (o : Outcome) :
    (o.enclose rule first).calls = o.journal.filterMap Event.call? := rfl

theorem parseClass_same_class {source : List Token} {tree : Node} (endOffset' endLine' : Nat)
    (parsed : (parseClass limit (.ofTokens tokens endOffset endLine)).result = .ok tree)
    (starts : tree.tokens <+: source) :
    (parseClass limit (.ofTokens source endOffset' endLine')).result = .ok tree ∧
    (parseClass limit (.ofTokens source endOffset' endLine')).calls =
      (parseClass limit (.ofTokens tokens endOffset endLine)).calls := by
  obtain ⟨other, rfl⟩ := starts
  cases limit with
  | zero => cases parsed
  | succ room =>
      let c := Cursor.atStart (.ofTokens tokens endOffset endLine)
      let d := Cursor.atStart (.ofTokens (tree.tokens ++ other) endOffset' endLine')
      let visit := Rule.visit (room + 1) room
      obtain ⟨success, rfl⟩ := Outcome.result_enclose_eq_ok.mp parsed
      obtain ⟨p, runs, nodes, journal, success'⟩ := (Phrase.runs_run visit Rule.class.body {} c).of_closing
        (Rule.visit_sound _ _) (Rule.visit_alike _ _) (Cursor.closed_atStart _ _ _)
        (Rule.eof_not_mem_kindsRead _) Rule.closing_class success (d := d) rfl
      have same : parseClass (room + 1) (.ofTokens _ endOffset' endLine') = p.enclose .class d.peek :=
        congrArg (Outcome.enclose .class d.peek) runs.eq_run
      rw [same]
      constructor
      · rw [Outcome.result_enclose_eq_ok, nodes]
        exact ⟨success', rfl⟩
      · rw [Outcome.calls_enclose, journal]
        rfl

theorem parseClass_same_error {read rest : List Token} {found : Token} {d : Diagnostic}
    (other : List Token) (endOffset' endLine' : Nat)
    (failed : (parseClass limit (.ofTokens (read ++ found :: rest) endOffset endLine)).result = .error d)
    (unread : (parseClass limit (.ofTokens (read ++ found :: rest) endOffset endLine)).cursor.unread =
      found :: rest) :
    (parseClass limit (.ofTokens (read ++ found :: other) endOffset' endLine')).result = .error d ∧
    (parseClass limit (.ofTokens (read ++ found :: other) endOffset' endLine')).cursor.unread =
      found :: other := by
  have alike := parseClass_alike other endOffset' endLine' unread
  rw [Visit.result_eq_error_iff] at failed ⊢
  refine ⟨alike.failure.trans failed, ?_⟩
  obtain ⟨between, before, after⟩ := alike.cursor.split
  rw [Visit.cursor_toOutcome] at before after
  obtain rfl : between = [] := List.self_eq_append_left.mp (unread.symm.trans before)
  exact after

/-! ## Cutting a source off -/

theorem readOf_parsed {tree : Node}
    (parsed : (parseClass limit (.ofTokens tokens endOffset endLine)).result = .ok tree) :
    (parseClass limit (.ofTokens tokens endOffset endLine)).readOf tokens = tree.tokens.length := by
  obtain ⟨_, passes⟩ := Rule.visit_derives (Cursor.closed_atStart tokens endOffset endLine) parsed
  have length := congrArg List.length passes.unread
  rw [List.length_append] at length
  exact (Nat.sub_eq_of_eq_add length)

/-- Parsing fails at the end of the source, wherever that is said to be. -/
def FailsAtEnd (limit : Nat) (tokens : List Token) : Prop :=
  ∀ endOffset endLine, ∃ violation, ∃ d : Diagnostic,
    d = .grammar violation (.endOfInput endOffset endLine) ∧
    (parseClass limit (.ofTokens tokens endOffset endLine)).result = .error d ∧
    d.location = " at end" ∧ d.line = endLine

theorem failsAtEnd_of_cut {cut : List Token} (later : List Token) (endOffset endLine : Nat)
    (reaches : cut.length ≤
      (parseClass limit (.ofTokens (cut ++ later) endOffset endLine)).readOf (cut ++ later))
    (short : ∀ tree, (parseClass limit (.ofTokens (cut ++ later) endOffset endLine)).result = .ok tree →
      cut.length < tree.tokens.length) : FailsAtEnd limit cut := by
  intro endOffset' endLine'
  cases result : (parseClass limit (.ofTokens cut endOffset' endLine')).result with
  | ok tree =>
      obtain ⟨_, starts, _⟩ := derives_of_parseClass result
      have parsed := (parseClass_same_class endOffset endLine result
        (starts.trans (List.prefix_append cut later))).1
      have fits := starts.length_le
      have long := short tree parsed
      omega
  | error d =>
      obtain ⟨violation, found, rfl⟩ := parseClass_error result
      obtain ⟨read, rest, rfl, same, unread, _⟩ := parseClass_failed result
      cases rest with
      | nil =>
          obtain rfl : found = .endOfInput endOffset' endLine' := same
          exact ⟨violation, _, rfl, rfl, rfl, rfl⟩
      | cons token rest =>
          -- The token that was found stands in the whole source as well, which then fails there too.
          obtain rfl : found = token := same
          obtain ⟨_, unread'⟩ := parseClass_same_error (rest ++ later) endOffset endLine result unread
          rw [List.append_assoc, List.cons_append, Visit.readOf, unread'] at reaches
          simp only [List.length_append, List.length_cons] at reaches
          omega

theorem failsAtEnd_take {k : Nat}
    (reaches : k ≤ (parseClass limit (.ofTokens tokens endOffset endLine)).readOf tokens)
    (short : ∀ tree, (parseClass limit (.ofTokens tokens endOffset endLine)).result = .ok tree →
      k < tree.tokens.length) : FailsAtEnd limit (tokens.take k) := by
  have whole := tokens.take_append_drop k
  have length : (tokens.take k).length ≤ k := List.length_take_le k tokens
  apply failsAtEnd_of_cut (tokens.drop k) endOffset endLine
  · rw [whole]
    exact Nat.le_trans length reaches
  · intro tree parsed
    rw [whole] at parsed
    exact Nat.lt_of_le_of_lt length (short tree parsed)

theorem parseClass_truncation (tokens : List Token) (endOffset endLine limit : Nat) :
    let visit := parseClass limit (.ofTokens tokens endOffset endLine)
    let read := visit.readOf tokens
    (∀ tree, visit.result = .ok tree →
      (∀ source endOffset' endLine', tokens.take read <+: source →
        (parseClass limit (.ofTokens source endOffset' endLine')).result = .ok tree ∧
        (parseClass limit (.ofTokens source endOffset' endLine')).calls = visit.calls) ∧
      ∀ k < read, FailsAtEnd limit (tokens.take k)) ∧
    ∀ violation found, visit.result = .error (.grammar violation found) →
      (tokens[read]? = some found → ∀ source endOffset' endLine', tokens.take (read + 1) <+: source →
        (parseClass limit (.ofTokens source endOffset' endLine')).result =
          .error (.grammar violation found)) ∧
      ∀ k ≤ read, FailsAtEnd limit (tokens.take k) := by
  intro visit read
  constructor
  · intro tree parsed
    have count : read = tree.tokens.length := readOf_parsed parsed
    constructor
    · intro source endOffset' endLine' starts
      obtain ⟨_, begins, _⟩ := derives_of_parseClass parsed
      rw [count, ← List.prefix_iff_eq_take.mp begins] at starts
      exact parseClass_same_class endOffset' endLine' parsed starts
    · intro k lt
      apply failsAtEnd_take (Nat.le_of_lt lt)
      intro other parsed'
      rw [← readOf_parsed parsed']
      exact lt
  · intro violation found failed
    constructor
    · intro here source endOffset' endLine' starts
      obtain ⟨before, rest, rfl, same, unread, count⟩ := parseClass_failed failed
      have count' : read = before.length := count
      cases rest with
      | nil => simp [count'] at here
      | cons token rest =>
          obtain rfl : found = token := same
          have begin : (before ++ found :: rest).take (read + 1) = before ++ [found] := by
            rw [count', List.take_length_add_append, List.take_succ_cons, List.take_zero]
          rw [begin] at starts
          obtain ⟨other, rfl⟩ := starts
          rw [List.append_assoc]
          exact (parseClass_same_error other endOffset' endLine' failed unread).1
    · intro k le
      apply failsAtEnd_take le
      intro tree parsed
      cases failed.symm.trans parsed

/-- `class A { function void f() { return; } }`, an end of input and one more token. -/
def plainReturnSource : List Token := negationSource.take 10 ++ negationSource.drop 12

-- Cut off after `return`, the source no longer shows that no expression follows, and the limit has no room
-- for one; cut off before the second `x` of `return x x`, it lacks the semicolon.
theorem parseClass_truncation_return :
    (parseClass 5 (.ofTokens (plainReturnSource.take 10) 7 3)).result =
      .error (.grammar (.tooDeep 5) (.endOfInput 7 3)) ∧
    FailsAtEnd 5 (plainReturnSource.take 10) ∧ FailsAtEnd 8 (strayNameSource.take 11) ∧
    ∃ tree, (parseClass 5 (.ofTokens plainReturnSource 0 1)).result = .ok tree ∧
      (parseClass 5 (.ofTokens (plainReturnSource.take 13 ++ [.bare .ident]) 7 3)).result = .ok tree := by
  have success : ((parseClass 5 (.ofTokens plainReturnSource 0 1)).toOutcome {}).failure? = none := by
    decide +kernel
  obtain ⟨tree, parsed⟩ : ∃ tree, (parseClass 5 (.ofTokens plainReturnSource 0 1)).result = .ok tree := by
    cases result : (parseClass 5 (.ofTokens plainReturnSource 0 1)).result with
    | ok tree => exact ⟨tree, rfl⟩
    | error d =>
        rw [Visit.result_eq_error_iff.mp result] at success
        cases success
  have count : (parseClass 5 (.ofTokens plainReturnSource 0 1)).readOf plainReturnSource = 13 := by
    decide +kernel
  have failed : (parseClass 8 (.ofTokens strayNameSource 0 1)).result =
      .error (.grammar (.unexpected [.symbol .semicolon]) (.bare .ident)) :=
    Visit.result_eq_error_iff.mpr (by decide +kernel)
  have count' : (parseClass 8 (.ofTokens strayNameSource 0 1)).readOf strayNameSource = 11 := by
    decide +kernel
  obtain ⟨others, shorter⟩ := (parseClass_truncation plainReturnSource 0 1 5).1 tree parsed
  obtain ⟨_, shorter'⟩ := (parseClass_truncation strayNameSource 0 1 8).2 _ _ failed
  rw [count] at others shorter
  rw [count'] at shorter'
  refine ⟨Visit.result_eq_error_iff.mpr (by decide +kernel), shorter 10 (by decide), ?_, tree, parsed, ?_⟩
  · exact shorter' 11 (Nat.le_refl 11)
  · exact (others _ 7 3 (List.prefix_append _ _)).1

end Jack
