import Jack.Proofs.Parse.CallTable
import Jack.Proofs.Parse.FirstError
import Jack.Proofs.Tree.Kindred

/-!
# Only kinds steer the parser

Two sources whose tokens have the same kinds are read in the same way, whatever their tokens say and
wherever they stand: either both have the same tree, up to the tokens at its leaves, and the same calls, up
to the names that stand there, or parsing fails in the same way at the same place.
-/

namespace Jack

structure Cursor.Kindred (c d : Cursor) : Prop where
  unread : d.unread.map Token.kind = c.unread.map Token.kind
  closed : c.Closed
  closed' : d.Closed

namespace Cursor.Kindred

variable {c d c' d' : Cursor}

theorem peek (kindred : c.Kindred d) : d.peek.kind = c.peek.kind := by
  have kinds := kindred.unread
  rw [Cursor.peek_eq, Cursor.peek_eq]
  cases unread : c.unread <;> cases unread' : d.unread <;> rw [unread, unread'] at kinds
  case nil.nil => exact kindred.closed'.trans kindred.closed.symm
  case cons.cons => exact (List.cons.inj kinds).1
  all_goals cases kinds

theorem advance (kindred : c.Kindred d) : c.advance.Kindred d.advance where
  unread := by rw [unread_advance, unread_advance, List.map_tail, List.map_tail, kindred.unread]
  closed := kindred.closed
  closed' := kindred.closed'

theorem length_unread (kindred : c.Kindred d) : d.unread.length = c.unread.length := by
  rw [← List.length_map Token.kind, kindred.unread, List.length_map]

end Cursor.Kindred

namespace Outcome

/-- Both succeeded, or both failed in the same way, each at the token that it stopped at. -/
structure Kindred (o p : Outcome) : Prop where
  nodes : Forest.Kindred o.nodes p.nodes
  cursor : o.cursor.Kindred p.cursor
  failure : Option.Rel (fun d e => ∃ violation, d = .grammar violation o.cursor.peek ∧
    e = .grammar violation p.cursor.peek) o.failure? p.failure?

variable {o p : Outcome}

theorem kindred_nothing {c d : Cursor} (kindred : c.Kindred d) (k k' : Locals) :
    (nothing k c).Kindred (nothing k' d) :=
  ⟨trivial, kindred, .none⟩

theorem kindred_failed {c d : Cursor} (violation : Violation) (kindred : c.Kindred d) (k k' : Locals) :
    (failed violation k c).Kindred (failed violation k' d) :=
  ⟨trivial, kindred, .some ⟨violation, rfl, rfl⟩⟩

theorem kindred_token {c d : Cursor} (kindred : c.Kindred d) (k k' : Locals) :
    (token k c).Kindred (token k' d) :=
  ⟨Forest.alike_singleton kindred.peek, kindred.advance, .none⟩

namespace Kindred

theorem success_iff (kindred : o.Kindred p) : p.failure? = none ↔ o.failure? = none := by
  have failure := kindred.failure
  generalize o.failure? = found, p.failure? = found' at failure
  cases failure <;> simp

theorem of_failure {d : Diagnostic} (kindred : o.Kindred p) (failure : o.failure? = some d) :
    ∃ violation, d = .grammar violation o.cursor.peek ∧
      p.failure? = some (.grammar violation p.cursor.peek) := by
  have related := kindred.failure
  rw [failure] at related
  generalize p.failure? = failure' at related ⊢
  cases related with
  | some same =>
      obtain ⟨violation, same, rfl⟩ := same
      exact ⟨violation, same, rfl⟩

theorem append {later after : Outcome} (first : o.Kindred p) (second : later.Kindred after) :
    (o.append later).Kindred (p.append after) :=
  ⟨Forest.Alike.append first.nodes second.nodes, second.cursor, second.failure⟩

theorem noted (kindred : o.Kindred p) (first first' : Token) (note : Note) :
    (o.noted first note).Kindred (p.noted first' note) := by
  constructor
  · simpa using kindred.nodes
  · simpa using kindred.cursor
  · simpa using kindred.failure

theorem enclose (kindred : o.Kindred p) (rule : Rule) (first first' : Token) (k k' : Locals) :
    ((o.enclose rule first).toOutcome k).Kindred ((p.enclose rule first').toOutcome k') := by
  rw [Visit.toOutcome_enclose, Visit.toOutcome_enclose]
  refine ⟨?_, kindred.cursor, kindred.failure⟩
  simp only [kindred.success_iff]
  split
  · exact Forest.alike_singleton ⟨rfl, kindred.nodes⟩
  · trivial

end Kindred

end Outcome

namespace Phrase

def RulesKindred (visit : Rule → Cursor → Visit) : Prop :=
  ∀ (r : Rule) (k k' : Locals) (c d : Cursor), c.Kindred d →
    ((visit r c).toOutcome k).Kindred ((visit r d).toOutcome k')

-- Every decision of a run is a test on the kind of the next token, or on whether the cursor has moved; what is
-- kept beside the nodes decides nothing.
theorem Runs.kindred {visit : Rule → Cursor → Visit} (rules : RulesKindred visit) {phrase : Phrase}
    {k : Locals} {c : Cursor} {o : Outcome} (runs : Runs visit phrase k c o) (k' : Locals) {d : Cursor}
    (kindred : c.Kindred d) : ∃ p, Runs visit phrase k' d p ∧ o.Kindred p := by
  induction runs generalizing k' d with
  | nothing k c => exact ⟨_, .nothing k' d, Outcome.kindred_nothing kindred k k'⟩
  | refuse violation k c =>
      exact ⟨_, .refuse violation k' d, Outcome.kindred_failed violation kindred k k'⟩
  | read member => exact ⟨_, .read (by rwa [kindred.peek]), Outcome.kindred_token kindred _ k'⟩
  | missed foreign => exact ⟨_, .missed (by rwa [kindred.peek]), Outcome.kindred_failed _ kindred _ k'⟩
  | rule r k c => exact ⟨_, .rule r k' d, rules r k k' c d kindred⟩
  | cut _ failure ih =>
      obtain ⟨p, runs, same⟩ := ih k' kindred
      obtain ⟨_, _, failure'⟩ := same.of_failure failure
      exact ⟨p, .cut runs failure', same⟩
  | andThen _ success _ ihFirst ihSecond =>
      obtain ⟨p, first, same⟩ := ihFirst k' kindred
      obtain ⟨q, second, same'⟩ := ihSecond p.locals same.cursor
      exact ⟨_, .andThen first (same.success_iff.mpr success) second, same.append same'⟩
  | chosen member _ ih =>
      obtain ⟨p, runs, same⟩ := ih k' kindred
      exact ⟨p, .chosen (by rwa [kindred.peek]) runs, same⟩
  | otherwise foreign _ ih =>
      obtain ⟨p, runs, same⟩ := ih k' kindred
      exact ⟨p, .otherwise (by rwa [kindred.peek]) runs, same⟩
  | done foreign => exact ⟨_, .done (by rwa [kindred.peek]), Outcome.kindred_nothing kindred _ k'⟩
  | last member _ ended ih =>
      obtain ⟨p, runs, same⟩ := ih k' kindred
      refine ⟨p, .last (by rwa [kindred.peek]) runs fun success => ?_, same⟩
      rw [kindred.length_unread, same.cursor.length_unread]
      exact ended (same.success_iff.mp success)
  | again member _ success progress _ ihFirst ihRest =>
      obtain ⟨p, first, same⟩ := ihFirst k' kindred
      obtain ⟨q, rest, same'⟩ := ihRest p.locals same.cursor
      refine ⟨_, .again (by rwa [kindred.peek]) first (same.success_iff.mpr success) ?_ rest,
        same.append same'⟩
      rwa [kindred.length_unread, same.cursor.length_unread]
  | noted _ ih =>
      obtain ⟨p, runs, same⟩ := ih k' kindred
      exact ⟨_, .noted runs, same.noted _ _ _⟩

end Phrase

theorem Rule.visit_kindred (limit room : Nat) : Phrase.RulesKindred (Rule.visit limit room) := by
  induction room with
  | zero =>
      intro rule k k' c d kindred
      exact Outcome.kindred_failed _ kindred k k'
  | succ room ih =>
      intro rule k k' c d kindred
      obtain ⟨p, runs, same⟩ :=
        (Phrase.runs_run (Rule.visit limit room) rule.body {} c).kindred ih {} kindred
      rw [Rule.visit, Rule.visit, runs.eq_run]
      exact same.enclose rule c.peek d.peek k k'

/-! ## Classes -/

section

variable {tokens others : List Token} {endOffset endLine endOffset' endLine' limit : Nat}

theorem parseClass_kindred (kinds : others.map Token.kind = tokens.map Token.kind) :
    ((parseClass limit (.ofTokens tokens endOffset endLine)).toOutcome {}).Kindred
      ((parseClass limit (.ofTokens others endOffset' endLine')).toOutcome {}) :=
  Rule.visit_kindred limit limit .class {} {} _ _
    ⟨kinds, Cursor.closed_atStart _ _ _, Cursor.closed_atStart _ _ _⟩

theorem exists_kindred_tree (kinds : others.map Token.kind = tokens.map Token.kind) {tree : Node}
    (parsed : (parseClass limit (.ofTokens tokens endOffset endLine)).result = .ok tree) :
    ∃ tree', (parseClass limit (.ofTokens others endOffset' endLine')).result = .ok tree' ∧
      tree.Kindred tree' := by
  have kindred := @parseClass_kindred tokens others endOffset endLine endOffset' endLine' limit kinds
  obtain ⟨success, nodes⟩ := Visit.result_eq_ok_iff.mp parsed
  have related := Forest.alike_iff_forall₂.mp kindred.nodes
  rw [nodes, List.forall₂_cons_left_iff] at related
  obtain ⟨tree', _, same, rest, nodes'⟩ := related
  cases rest
  exact ⟨tree', Visit.result_eq_ok_iff.mpr ⟨kindred.success_iff.mpr success, nodes'⟩, same⟩

theorem found_eq_getD {violation : Violation} {found : Token}
    (failed : (parseClass limit (.ofTokens tokens endOffset endLine)).result =
      .error (.grammar violation found)) :
    found = tokens[(parseClass limit (.ofTokens tokens endOffset endLine)).readOf tokens]?.getD
      (.endOfInput endOffset endLine) := by
  obtain ⟨read, rest, rfl, same, _, count⟩ := parseClass_failed failed
  rw [count, same, List.getElem?_append_right (Nat.le_refl _), Nat.sub_self, List.headD_eq_head?_getD,
    List.head?_eq_getElem?]

theorem exists_kindred_error (kinds : others.map Token.kind = tokens.map Token.kind) {d : Diagnostic}
    (failed : (parseClass limit (.ofTokens tokens endOffset endLine)).result = .error d) :
    ∃ violation, ∃ read : Nat,
      d = .grammar violation (tokens[read]?.getD (.endOfInput endOffset endLine)) ∧
      (parseClass limit (.ofTokens others endOffset' endLine')).result =
        .error (.grammar violation (others[read]?.getD (.endOfInput endOffset' endLine'))) := by
  have kindred := @parseClass_kindred tokens others endOffset endLine endOffset' endLine' limit kinds
  obtain ⟨violation, same, failure⟩ := kindred.of_failure (Visit.result_eq_error_iff.mp failed)
  have failed' := Visit.result_eq_error_iff.mpr failure
  have read : (parseClass limit (.ofTokens others endOffset' endLine')).readOf others =
      (parseClass limit (.ofTokens tokens endOffset endLine)).readOf tokens := by
    have unread := kindred.cursor.length_unread
    have length : others.length = tokens.length := by
      rw [← List.length_map Token.kind, kinds, List.length_map]
    rw [Visit.cursor_toOutcome, Visit.cursor_toOutcome] at unread
    rw [Visit.readOf, Visit.readOf, unread, length]
  refine ⟨violation, (parseClass limit (.ofTokens tokens endOffset endLine)).readOf tokens, ?_, ?_⟩
  · rw [← found_eq_getD (failed.trans (congrArg Except.error same))]
    exact same
  · rw [← read, ← found_eq_getD failed']
    exact failed'

end

theorem only_kinds_steer (tokens others : List Token)
    (endOffset endLine endOffset' endLine' limit : Nat)
    (kinds : tokens.map Token.kind = others.map Token.kind) :
    let v := parseClass limit (.ofTokens tokens endOffset endLine)
    let w := parseClass limit (.ofTokens others endOffset' endLine')
    (∃ tree places, v.result = .ok tree ∧ tree.tokens <+: tokens ∧ w.result = .ok (tree.withTokens others) ∧
      List.Forall₂ (Call.MadeAt tokens) places v.calls ∧
      List.Forall₂ (Call.MadeAt others) places w.calls ∧
      w.calls.map Call.arity = v.calls.map Call.arity) ∨
    ∃ violation, ∃ read : Nat,
      v.result = .error (.grammar violation (tokens[read]?.getD (.endOfInput endOffset endLine))) ∧
      w.result = .error (.grammar violation (others[read]?.getD (.endOfInput endOffset' endLine'))) := by
  intro v w
  cases result : v.result with
  | ok tree =>
      obtain ⟨tree', parsed, kindred⟩ := exists_kindred_tree kinds.symm result
      obtain ⟨_, starts, _⟩ := derives_of_parseClass result
      obtain ⟨_, starts', _⟩ := derives_of_parseClass parsed
      have whole : tree.withTokens others = tree' := by
        obtain ⟨rest, rfl⟩ := starts'
        exact kindred.withTokens rest
      rw [show v.calls = tree.calls from parseClass_calls result,
        show w.calls = tree'.calls from parseClass_calls parsed]
      have made := Node.madeAt_calls starts'
      rw [Node.Kindred.map_first kindred] at made
      rw [← whole] at parsed
      exact Or.inl ⟨tree, _, rfl, starts, parsed, Node.madeAt_calls starts, made,
        Node.Kindred.map_arity kindred⟩
  | error d =>
      obtain ⟨violation, read, rfl, failed⟩ := exists_kindred_error kinds.symm result
      exact Or.inr ⟨violation, read, rfl, failed⟩

def renamedCalls : List Token := nestedCalls.map fun token => ⟨token.kind, "y", .point 0 9⟩

theorem only_kinds_steer_renamed :
    nestedCalls.map Token.kind = renamedCalls.map Token.kind ∧
    ∃ tree places, (parseClass 12 (.ofTokens nestedCalls 0 6)).result = .ok tree ∧
      (parseClass 12 (.ofTokens renamedCalls 70 9)).result = .ok (tree.withTokens renamedCalls) ∧
      List.Forall₂ (Call.MadeAt nestedCalls) places
        [⟨"h", 4, 2⟩, ⟨"k", 5, 1⟩, ⟨"Sys.g", 3, 2⟩] ∧
      List.Forall₂ (Call.MadeAt renamedCalls) places
        [⟨"y", 9, 2⟩, ⟨"y", 9, 1⟩, ⟨"y.y", 9, 2⟩] := by
  have kinds : nestedCalls.map Token.kind = renamedCalls.map Token.kind := by decide
  have calls : (parseClass 12 (.ofTokens nestedCalls 0 6)).calls =
      [⟨"h", 4, 2⟩, ⟨"k", 5, 1⟩, ⟨"Sys.g", 3, 2⟩] := by
    decide +kernel
  have calls' : (parseClass 12 (.ofTokens renamedCalls 70 9)).calls =
      [⟨"y", 9, 2⟩, ⟨"y", 9, 1⟩, ⟨"y.y", 9, 2⟩] := by
    decide +kernel
  rcases only_kinds_steer nestedCalls renamedCalls 0 6 70 9 12 kinds with
    ⟨tree, places, parsed, _, parsed', made, made', _⟩ | ⟨_, _, failed, _⟩
  · rw [calls] at made
    rw [calls'] at made'
    exact ⟨kinds, tree, places, parsed, parsed', made, made'⟩
  · have success : ((parseClass 12 (.ofTokens nestedCalls 0 6)).toOutcome {}).failure? = none := by
      decide +kernel
    rw [Visit.result_eq_error_iff.mp failed] at success
    cases success

end Jack
