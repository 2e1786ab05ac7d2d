import Jack.Proofs.Grammar.Calls
import Jack.Proofs.Parse.LongestPhrase

/-!
# The calls that parsing notes are those of the tree

Parsing keeps the receiver of a call, the name of its method and the number of arguments read so far, and notes
the call when it has read the closing parenthesis. The nodes it has read by then say the same about the call:
what has been noted in the end is the list of the calls in the tree, one for each list of arguments.
-/

namespace Jack

open Grammar

def Outcome.calls (o : Outcome) : List Call := o.journal.filterMap Event.call?

namespace Outcome

theorem calls_append (o later : Outcome) : (o.append later).calls = o.calls ++ later.calls :=
  List.filterMap_append

theorem calls_noted_of_ne {note : Note} (other : note ≠ .call) (o : Outcome) (first : Token) :
    (o.noted first note).calls = o.calls := by
  have none : o.locals.events note = [] := by cases note <;> first | rfl | exact absurd rfl other
  unfold noted
  split <;> simp [calls, none]

theorem calls_noted_call {o : Outcome} {call : Call} (success : o.failure? = none)
    (made : o.locals.call? = some call) (first : Token) :
    (o.noted first .call).calls = o.calls ++ [call] ∧ (o.noted first .call).locals.count = call.arity := by
  rw [noted_of_success success]
  simp [calls, Locals.events, Locals.note, made, Event.call?]

end Outcome

namespace Phrase

/-- No call is noted for a part of the phrase. -/
def callFree : Phrase → Bool
  | .andThen front back => front.callFree && back.callFree
  | .choose _ chosen otherwise => chosen.callFree && otherwise.callFree
  | .many _ round => round.callFree
  | .noted note body => note ≠ .call && body.callFree
  | _ => true

/-- Every expression that stands directly in the phrase is counted as an argument, and nothing else is. -/
def tallies : Phrase → Bool
  | .rule r => r ≠ .expression && r ≠ .expressionList
  | .andThen front back => front.tallies && back.tallies
  | .choose _ chosen otherwise => chosen.tallies && otherwise.tallies
  | .many _ round => round.tallies
  | .noted note body => note = .argument && body = .rule .expression
  | _ => true

/-- The calls noted for a rule are those of its node, and no rule but a list of arguments gives a number. -/
structure RulesNoted (visit : Rule → Cursor → Visit) : Prop where
  calls : ∀ (r : Rule) (k : Locals) (c : Cursor), c.Closed → ((visit r c).toOutcome k).failure? = none →
    ((visit r c).toOutcome k).calls = Forest.calls ((visit r c).toOutcome k).nodes
  locals : ∀ (r : Rule) (k : Locals) (c : Cursor), r ≠ .expressionList → ((visit r c).toOutcome k).locals = k
  count : ∀ (k : Locals) (c : Cursor) (args : List Node), c.Closed →
    ((visit .expressionList c).toOutcome k).failure? = none →
    ((visit .expressionList c).toOutcome k).nodes = [.branch .expressionList args] →
    ((visit .expressionList c).toOutcome k).locals = { k with count := Forest.expressions args }

variable {visit : Rule → Cursor → Visit} {phrase : Phrase} {k : Locals} {c : Cursor} {o : Outcome}

theorem Runs.calls_of_callFree (sound : RulesSound visit) (rules : RulesNoted visit)
    (runs : Runs visit phrase k c o) (closed : c.Closed) (real : .eof ∉ phrase.kindsRead)
    (free : phrase.callFree = true) (success : o.failure? = none) : o.calls = Forest.calls o.nodes := by
  induction runs with
  | nothing | read | done => rfl
  | refuse | missed => cases success
  | rule r k c => exact rules.calls r k c closed success
  | cut _ failure =>
      rw [failure] at success
      cases success
  | andThen first done _ ihFirst ihSecond =>
      have realFront := fun member => real (List.mem_append_left _ member)
      have realBack := fun member => real (List.mem_append_right _ member)
      obtain ⟨freeFront, freeBack⟩ := Bool.and_eq_true_iff.mp free
      have closed' := ((first.sound sound closed realFront).tokens done).closed closed
      rw [Outcome.calls_append, ihFirst closed realFront freeFront done,
        ihSecond closed' realBack freeBack success]
      simp [Forest.calls, Outcome.append]
  | chosen _ _ ih =>
      exact ih closed (fun member => real (List.mem_append_left _ member)) (Bool.and_eq_true_iff.mp free).1
        success
  | otherwise _ _ ih =>
      exact ih closed (fun member => real (List.mem_append_right _ member)) (Bool.and_eq_true_iff.mp free).2
        success
  | last _ _ _ ih => exact ih closed real free success
  | again _ first done _ _ ihFirst ihRest =>
      have closed' := ((first.sound sound closed real).tokens done).closed closed
      rw [Outcome.calls_append, ihFirst closed real free done, ihRest closed' real free success]
      simp [Forest.calls, Outcome.append]
  | noted _ ih =>
      obtain ⟨other, free'⟩ := Bool.and_eq_true_iff.mp free
      rw [Outcome.failure?_noted] at success
      rw [Outcome.calls_noted_of_ne (of_decide_eq_true other), Outcome.nodes_noted]
      exact ih closed real free' success

-- The counter of a run goes up by one for each expression among its nodes.
theorem Runs.count_of_tallies (sound : RulesSound visit) (rules : RulesNoted visit)
    (runs : Runs visit phrase k c o) (closed : c.Closed) (real : .eof ∉ phrase.kindsRead)
    (tallies : phrase.tallies = true) (success : o.failure? = none) :
    o.locals.count = k.count + Forest.expressions o.nodes := by
  induction runs with
  | nothing | read | done => rfl
  | refuse | missed => cases success
  | rule r k c =>
      simp only [Phrase.tallies, Bool.and_eq_true, decide_eq_true_eq] at tallies
      have label := spells_rule.mp ((sound r k c closed).spells success)
      rw [rules.locals r k c tallies.2, Forest.expressions, label]
      simp [tallies.1]
  | cut _ failure =>
      rw [failure] at success
      cases success
  | andThen first done _ ihFirst ihSecond =>
      have realFront := fun member => real (List.mem_append_left _ member)
      have realBack := fun member => real (List.mem_append_right _ member)
      obtain ⟨front, back⟩ := Bool.and_eq_true_iff.mp tallies
      have closed' := ((first.sound sound closed realFront).tokens done).closed closed
      have count := ihFirst closed realFront front done
      have count' := ihSecond closed' realBack back success
      simp only [Outcome.append, Forest.expressions_append]
      omega
  | chosen _ _ ih =>
      exact ih closed (fun member => real (List.mem_append_left _ member))
        (Bool.and_eq_true_iff.mp tallies).1 success
  | otherwise _ _ ih =>
      exact ih closed (fun member => real (List.mem_append_right _ member))
        (Bool.and_eq_true_iff.mp tallies).2 success
  | last _ _ _ ih => exact ih closed real tallies success
  | again _ first done _ _ ihFirst ihRest =>
      have closed' := ((first.sound sound closed real).tokens done).closed closed
      have count := ihFirst closed real tallies done
      have count' := ihRest closed' real tallies success
      simp only [Outcome.append, Forest.expressions_append]
      omega
  | @noted _ _ k c _ read =>
      simp only [Phrase.tallies, Bool.and_eq_true, decide_eq_true_eq] at tallies
      obtain ⟨rfl, rfl⟩ := tallies
      rw [Outcome.failure?_noted] at success
      have label := spells_rule.mp ((read.sound sound closed real).spells success)
      rw [Outcome.nodes_noted, Forest.expressions, label, Outcome.noted_of_success success]
      cases read with
      | rule => simp [Locals.note, rules.locals .expression k c (by decide)]

/-! ## Parts of a run that succeeds -/

theorem Runs.of_token {kinds : List Kind} (runs : Runs visit (.token kinds) k c o)
    (success : o.failure? = none) : c.peek.kind ∈ kinds ∧ o = .token k c := by
  cases runs with
  | read member => exact ⟨member, rfl⟩
  | missed => cases success

theorem Runs.of_andThen {front back : Phrase} (runs : Runs visit (.andThen front back) k c o)
    (success : o.failure? = none) : ∃ p q, Runs visit front k c p ∧ p.failure? = none ∧
      Runs visit back p.locals p.cursor q ∧ q.failure? = none ∧ o = p.append q := by
  cases runs with
  | cut _ failure =>
      rw [failure] at success
      cases success
  | andThen first done second => exact ⟨_, _, first, done, second, success, rfl⟩

theorem Runs.of_choose {kinds : List Kind} {chosen otherwise : Phrase}
    (runs : Runs visit (.choose kinds chosen otherwise) k c o) :
    Runs visit chosen k c o ∨ Runs visit otherwise k c o := by
  cases runs with
  | chosen _ runs => exact Or.inl runs
  | otherwise _ runs => exact Or.inr runs

theorem Runs.of_noted_identifier {note : Note} (runs : Runs visit (.noted note identifier) k c o)
    (success : o.failure? = none) :
    c.peek.kind = .ident ∧ o = { Outcome.token k c with
      journal := k.events note, locals := k.note c.peek note } := by
  cases runs with
  | noted read =>
      rw [Outcome.failure?_noted] at success
      obtain ⟨member, rfl⟩ := read.of_token success
      exact ⟨List.mem_singleton.mp member, Outcome.noted_of_success success _ _⟩

/-! ## Calls -/

section

variable (sound : RulesSound visit) (rules : RulesNoted visit)

include sound rules

theorem Runs.of_arguments (runs : Runs visit arguments k c o) (closed : c.Closed)
    (success : o.failure? = none) : ∃ (opening closing : Token) (args : List Node),
      opening.kind = .symbol .lParen ∧ closing.kind = .symbol .rParen ∧
      o.nodes = [.leaf opening, .branch .expressionList args, .leaf closing] ∧
      o.locals = { k with count := Forest.expressions args } := by
  obtain ⟨_, p, first, done, runs', done', rfl⟩ := runs.of_andThen success
  have closed' := ((first.sound sound closed (by decide)).tokens done).closed closed
  obtain ⟨opens, rfl⟩ := first.of_token done
  obtain ⟨q, _, second, list, third, last, rfl⟩ := runs'.of_andThen done'
  have label := spells_rule.mp ((second.sound sound closed' (by decide)).spells list)
  obtain ⟨node, nodes, label'⟩ := List.map_eq_singleton_iff.mp label
  obtain ⟨args, rfl⟩ := Node.eq_branch_of_label label'
  obtain ⟨closes, rfl⟩ := third.of_token last
  cases second with
  | rule =>
      refine ⟨c.peek, _, args, List.mem_singleton.mp opens, List.mem_singleton.mp closes, ?_, ?_⟩
      · simp only [Outcome.append, nodes]
        rfl
      · exact rules.count _ _ args closed' list nodes

theorem Runs.of_qualified (runs : Runs visit (sequence [symbol .dot, .noted .method identifier, arguments]) k c o)
    (closed : c.Closed) (success : o.failure? = none) : ∃ (dot name opening closing : Token) (args : List Node),
      dot.kind = .symbol .dot ∧ name.kind = .ident ∧ opening.kind = .symbol .lParen ∧
      closing.kind = .symbol .rParen ∧
      o.nodes = [.leaf dot, .leaf name, .leaf opening, .branch .expressionList args, .leaf closing] ∧
      o.locals = { k with method? := some name.lexeme, count := Forest.expressions args } := by
  obtain ⟨_, _, first, done, runs', done', rfl⟩ := runs.of_andThen success
  have closed' := ((first.sound sound closed (by decide)).tokens done).closed closed
  obtain ⟨dotted, rfl⟩ := first.of_token done
  obtain ⟨_, _, second, named, third, last, rfl⟩ := runs'.of_andThen done'
  have closed'' := ((second.sound sound closed' (by decide)).tokens named).closed closed'
  obtain ⟨ident, rfl⟩ := second.of_noted_identifier named
  obtain ⟨opening, closing, args, opens, closes, nodes, locals⟩ := third.of_arguments sound rules closed'' last
  refine ⟨c.peek, _, opening, closing, args, List.mem_singleton.mp dotted, ident, opens, closes, ?_, locals⟩
  simp only [Outcome.append, nodes]
  rfl

-- What is kept beside the nodes of a call and what these nodes say about it are the same call.
theorem Runs.of_callTail (runs : Runs visit callTail k c o) (closed : c.Closed)
    (success : o.failure? = none) {receiver : Token} (named : receiver.kind = .ident)
    (received : k.receiver? = some receiver) (new : k.method? = none) :
    ∃ call, Forest.IsCall (.leaf receiver :: o.nodes) call ∧ o.calls = Forest.calls o.nodes ++ [call] ∧
      o.locals.count = call.arity := by
  cases runs with
  | @noted _ _ _ _ p read =>
      rw [Outcome.failure?_noted] at success
      have inside := read.calls_of_callFree sound rules closed (by decide) (by decide) success
      obtain ⟨call, made, kept⟩ : ∃ call, Forest.IsCall (.leaf receiver :: p.nodes) call ∧
          p.locals.call? = some call := by
        rcases read.of_choose with read | read
        · obtain ⟨_, _, args, opens, closes, nodes, locals⟩ := read.of_arguments sound rules closed success
          rw [nodes, locals]
          exact ⟨_, .direct args named opens closes, by simp [Locals.call?, received, new]⟩
        rcases read.of_choose with read | read
        · obtain ⟨_, _, _, _, args, dotted, ident, opens, closes, nodes, locals⟩ :=
            read.of_qualified sound rules closed success
          rw [nodes, locals]
          exact ⟨_, .qualified args named dotted ident opens closes, by
            simp [Locals.call?, received, String.join]⟩
        · cases read
          cases success
      obtain ⟨calls, count⟩ := Outcome.calls_noted_call success kept c.peek
      rw [Outcome.nodes_noted]
      exact ⟨call, made, by rw [calls, inside], count⟩

end

end Phrase

/-! ## Rules -/

namespace Rule

open Phrase

theorem callFree_body {rule : Rule} (plain : rule.holdsCalls = false) : rule.body.callFree = true := by
  revert plain
  cases rule <;> decide

section

variable {visit : Rule → Cursor → Visit} (sound : RulesSound visit) (rules : RulesNoted visit)

include sound rules

theorem calls_of_no_list {phrase : Phrase} {k : Locals} {c : Cursor} {o : Outcome} (rule : Rule)
    (runs : Runs visit phrase k c o) (closed : c.Closed) (real : .eof ∉ phrase.kindsRead)
    (free : phrase.callFree = true) (absent : .expressionList ∉ phrase.rulesRead)
    (success : o.failure? = none) : o.calls = (Node.branch rule o.nodes).calls := by
  have spells := (runs.sound sound closed real).spells success
  rw [runs.calls_of_callFree sound rules closed real free success,
    Node.calls_branch_of_no_list rule fun member => absent (spells.mem_rulesRead member)]

theorem calls_term_body {c : Cursor} {o : Outcome} (runs : Runs visit Rule.term.body {} c o)
    (closed : c.Closed) (success : o.failure? = none) : o.calls = (Node.branch .term o.nodes).calls := by
  have others {phrase : Phrase} (runs : Runs visit phrase {} c o) (real : .eof ∉ phrase.kindsRead)
      (free : phrase.callFree = true) (absent : .expressionList ∉ phrase.rulesRead) :=
    calls_of_no_list sound rules .term runs closed real free absent success
  rcases runs.of_choose with runs | runs
  · exact others runs (by decide) (by decide) (by decide)
  rcases runs.of_choose with runs | runs
  · exact others runs (by decide) (by decide) (by decide)
  rcases runs.of_choose with runs | runs
  · -- An identifier, which is called, or has an index, or stands alone.
    obtain ⟨p, q, first, done, second, last, rfl⟩ := runs.of_andThen success
    rcases second.of_choose with second' | second'
    · have closed' := ((first.sound sound closed (by decide)).tokens done).closed closed
      obtain ⟨named, rfl⟩ := first.of_noted_identifier done
      obtain ⟨call, made, calls, _⟩ := second'.of_callTail sound rules closed' last named rfl rfl
      exact calls.trans (Node.calls_term made).symm
    · exact others (.andThen first done second') (by decide) (by decide) (by decide)
  · exact others runs (by decide) (by decide) (by decide)

theorem calls_doStatement_body {c : Cursor} {o : Outcome} (runs : Runs visit Rule.doStatement.body {} c o)
    (closed : c.Closed) (success : o.failure? = none) :
    o.calls = (Node.branch .doStatement o.nodes).calls := by
  obtain ⟨_, _, first, begun, runs', success', rfl⟩ := runs.of_andThen success
  have closed' := ((first.sound sound closed (by decide)).tokens begun).closed closed
  obtain ⟨_, rfl⟩ := first.of_token begun
  obtain ⟨_, _, second, received, runs'', ended, rfl⟩ := runs'.of_andThen success'
  have closed'' := ((second.sound sound closed' (by decide)).tokens received).closed closed'
  obtain ⟨named, rfl⟩ := second.of_noted_identifier received
  obtain ⟨p, _, third, read, fourth, last, rfl⟩ := runs''.of_andThen ended
  obtain ⟨ending, rfl⟩ := fourth.of_token last
  obtain ⟨call, made, calls, _⟩ := third.of_callTail sound rules closed'' read named rfl rfl
  have noted : (p.append (.token p.locals p.cursor)).calls = p.calls := by
    rw [Outcome.calls_append]
    exact List.append_nil _
  refine noted.trans (calls.trans ?_)
  exact (Node.calls_doStatement made (List.mem_singleton.mp ending)).symm

theorem calls_body (rule : Rule) {c : Cursor} {o : Outcome} (runs : Runs visit rule.body {} c o)
    (closed : c.Closed) (success : o.failure? = none) : o.calls = (Node.branch rule o.nodes).calls := by
  cases holds : rule.holdsCalls with
  | false =>
      exact calls_of_no_list sound rules rule runs closed rule.eof_not_mem_kindsRead (callFree_body holds)
        (list_not_mem_rulesRead holds) success
  | true =>
      cases rule with
      | term => exact calls_term_body sound rules runs closed success
      | doStatement => exact calls_doStatement_body sound rules runs closed success
      | _ => cases holds

end

theorem visit_noted (limit room : Nat) : RulesNoted (Rule.visit limit room) := by
  induction room with
  | zero =>
      refine ⟨?_, fun _ _ _ _ => rfl, ?_⟩
      · intro _ _ _ _ success
        cases success
      · intro _ _ _ _ success
        cases success
  | succ room ih =>
      refine ⟨?_, ?_, ?_⟩
      · intro r k c closed success
        rw [Rule.visit, Visit.toOutcome_enclose] at success ⊢
        have noted := calls_body (visit_sound limit room) ih r (runs_run _ r.body {} c) closed success
        rw [if_pos success, Forest.calls_singleton]
        exact noted
      · intro r k c other
        rw [Rule.visit, Visit.toOutcome_enclose]
        simp [other]
      · intro k c args closed success nodes
        rw [Rule.visit, Visit.toOutcome_enclose] at success nodes ⊢
        change (Phrase.run _ _ _ _).failure? = none at success
        simp only [success, ↓reduceIte, List.cons.injEq, Node.branch.injEq, true_and, and_true] at nodes ⊢
        have count := (runs_run _ Rule.expressionList.body {} c).count_of_tallies (visit_sound limit room) ih
          closed (by decide) (by decide) success
        rw [count, nodes]
        simp

end Rule

/-! ## Procedures -/

namespace Procedure

theorem calls_run {procedure : Procedure} (limit : Nat) {c : Cursor} (closed : c.Closed)
    (whole : ∀ receiver, procedure ≠ .call receiver) (success : (procedure.run limit c).failure? = none) :
    (procedure.run limit c).calls = Forest.calls (procedure.run limit c).nodes := by
  have free : procedure.phrase.callFree = true := by
    cases procedure with
    | rule r => rfl
    | statement => decide
    | call receiver => exact absurd rfl (whole receiver)
  rw [procedure.run_eq] at success ⊢
  exact (Phrase.runs_run _ _ _ _).calls_of_callFree (Rule.visit_sound limit limit)
    (Rule.visit_noted limit limit) closed procedure.eof_not_mem_kindsRead free success

/-- What follows an identifier is read as the rest of a call on it, and gives the number of its arguments. -/
theorem call_run (limit : Nat) {c : Cursor} (closed : c.Closed) {receiver : Token}
    (named : receiver.kind = .ident) (success : ((call receiver).run limit c).failure? = none) :
    ∃ made, Forest.IsCall (.leaf receiver :: ((call receiver).run limit c).nodes) made ∧
      ((call receiver).run limit c).calls = Forest.calls ((call receiver).run limit c).nodes ++ [made] ∧
      (call receiver).argumentCount? ((call receiver).run limit c) = some made.arity := by
  have runs := Phrase.runs_run (Rule.visit limit limit) callTail { receiver? := some receiver } c
  obtain ⟨made, nodes, calls, count⟩ := runs.of_callTail (Rule.visit_sound limit limit)
    (Rule.visit_noted limit limit) closed success named rfl rfl
  refine ⟨made, nodes, calls, ?_⟩
  simp only [argumentCount?, counts, success]
  exact congrArg some count

theorem count_run (limit : Nat) {c : Cursor} (closed : c.Closed) {node : Node}
    (success : ((rule .expressionList).run limit c).failure? = none)
    (nodes : ((rule .expressionList).run limit c).nodes = [node])
    (label : node.label = .rule .expressionList) :
    (rule .expressionList).argumentCount? ((rule .expressionList).run limit c) =
      some (Forest.expressions node.children) := by
  obtain ⟨args, rfl⟩ := Node.eq_branch_of_label label
  have locals := (Rule.visit_noted limit limit).count {} c args closed success nodes
  simp only [argumentCount?, counts, success]
  exact congrArg (some ∘ Locals.count) locals

theorem exists_node_of_derives {procedure : Procedure} {nodes : List Node}
    (whole : ∀ receiver, procedure ≠ .call receiver) (derives : procedure.Derives nodes) :
    ∃ node, nodes = [node] ∧ node.Derived ∧
      (node.label = .rule .expressionList ↔ procedure = .rule .expressionList) := by
  cases procedure with
  | rule r =>
      obtain ⟨node, rfl, label, derived⟩ := derives
      exact ⟨node, rfl, derived, by simp [label]⟩
  | statement =>
      obtain ⟨r, node, rfl, statement, label, derived⟩ := derives
      refine ⟨node, rfl, derived, ?_⟩
      rw [label]
      cases statement <;> simp
  | call receiver => exact absurd rfl (whole receiver)

theorem listsCalls_run {procedure : Procedure} {limit : Nat} {c : Cursor} (closed : c.Closed)
    (whole : ∀ receiver, procedure ≠ .call receiver) (success : (procedure.run limit c).failure? = none) :
    ∃ node, (procedure.run limit c).nodes = [node] ∧ node.ListsCalls (procedure.run limit c).calls ∧
      (node.findAll .expressionList).length = (procedure.run limit c).calls.length +
        (if procedure = .rule .expressionList then 1 else 0) ∧
      (procedure = .rule .expressionList → procedure.argumentCount? (procedure.run limit c) =
        some (Forest.expressions node.children)) := by
  have calls := calls_run limit closed whole success
  have sound := procedure.run_sound limit closed
  obtain ⟨node, nodes, derived, label⟩ :=
    exists_node_of_derives whole (derives_iff.mpr ⟨sound.spells success, sound.derived success⟩)
  rw [calls]
  refine ⟨node, nodes, ?_, ?_, ?_⟩
  · rw [nodes, Forest.calls_singleton]
    exact node.listsCalls_calls
  · rw [nodes, Forest.calls_singleton, derived.length_findAll_list]
    simp only [label]
  · rintro rfl
    exact count_run limit closed success nodes (label.mpr rfl)

end Procedure

theorem Visit.calls_toOutcome (v : Visit) (k : Locals) : (v.toOutcome k).calls = v.calls := by
  unfold toOutcome
  split <;> rfl

theorem parseClass_calls {limit : Nat} {tokens : List Token} {endOffset endLine : Nat} {tree : Node}
    (parsed : (parseClass limit (.ofTokens tokens endOffset endLine)).result = .ok tree) :
    (parseClass limit (.ofTokens tokens endOffset endLine)).calls = tree.calls := by
  obtain ⟨success, nodes⟩ := Visit.result_eq_ok_iff.mp parsed
  have noted := (Rule.visit_noted limit limit).calls .class {} _
    (Cursor.closed_atStart tokens endOffset endLine) success
  rw [← Visit.calls_toOutcome _ {}]
  change _ = Forest.calls ((parseClass limit _).toOutcome {}).nodes at noted
  rw [nodes, Forest.calls_singleton] at noted
  exact noted

theorem calls_read_off_tree (tokens : List Token) (endOffset endLine : Nat) :
    (∀ limit tree, (parseClass limit (.ofTokens tokens endOffset endLine)).result = .ok tree →
      tree.ListsCalls (parseClass limit (.ofTokens tokens endOffset endLine)).calls ∧
      (parseClass limit (.ofTokens tokens endOffset endLine)).calls.length =
        (tree.findAll .expressionList).length) ∧
    ∀ (s t : Session) (procedure : Procedure) (o : Outcome),
      s.cursor.stream = .ofTokens tokens endOffset endLine → (∀ receiver, procedure ≠ .call receiver) →
      s.step procedure = (o, t) → o.failure? = none →
      ∃ node new, o.nodes = [node] ∧ t.calls = s.calls ++ new ∧ node.ListsCalls new ∧
        (node.findAll .expressionList).length =
          new.length + (if procedure = .rule .expressionList then 1 else 0) ∧
        (procedure = .rule .expressionList →
          procedure.argumentCount? o = some (Forest.expressions node.children)) := by
  constructor
  · intro limit tree parsed
    obtain ⟨⟨label, derived⟩, _⟩ := derives_of_parseClass parsed
    have count := derived.length_findAll_list
    rw [label, if_neg (by simp), Nat.add_zero] at count
    rw [parseClass_calls parsed]
    exact ⟨tree.listsCalls_calls, count.symm⟩
  · intro s t procedure o source whole step success
    obtain ⟨rfl, rfl⟩ := Prod.mk.inj step
    have closed : s.cursor.Closed := congrArg (Token.kind ∘ TokenStream.endToken) source
    obtain ⟨node, nodes, lists, count, arguments⟩ := Procedure.listsCalls_run closed whole success
    exact ⟨node, _, nodes, Parser.calls_step s procedure, lists, count, arguments⟩

def Token.named (lexeme : String) (line : Nat) : Token := ⟨.ident, lexeme, .point 0 line⟩

/-- `class A { function void f() { do Sys.g(h(x), k()); } }` with `Sys` on line 3, `h` on line 4, and `k` on
line 5 -/
def nestedCalls : List Token :=
  [.bare (.keyword .class), .named "A" 1, .bare (.symbol .lBrace), .bare (.keyword .function),
    .bare (.keyword .void), .named "f" 2, .bare (.symbol .lParen), .bare (.symbol .rParen),
    .bare (.symbol .lBrace), .bare (.keyword .do), .named "Sys" 3, .bare (.symbol .dot), .named "g" 3,
    .bare (.symbol .lParen), .named "h" 4, .bare (.symbol .lParen), .named "x" 4, .bare (.symbol .rParen),
    .bare (.symbol .comma), .named "k" 5, .bare (.symbol .lParen), .bare (.symbol .rParen),
    .bare (.symbol .rParen), .bare (.symbol .semicolon), .bare (.symbol .rBrace), .bare (.symbol .rBrace)]

/-- A session in front of the arguments of `Sys.g`, in which one call was noted before -/
def argumentsSession : Session := ⟨.atStart (.ofTokens (nestedCalls.drop 14) 0 6), 9, [.call ⟨"init", 1, 1⟩]⟩

theorem calls_read_off_tree_nested :
    (∃ tree, (parseClass 12 (.ofTokens nestedCalls 0 6)).result = .ok tree ∧
      tree.ListsCalls [⟨"h", 4, 2⟩, ⟨"k", 5, 1⟩, ⟨"Sys.g", 3, 2⟩] ∧
      (tree.findAll .expressionList).length = 3) ∧
    ∃ node, (argumentsSession.step (.rule .expressionList)).1.nodes = [node] ∧
      node.ListsCalls [⟨"h", 4, 2⟩, ⟨"k", 5, 1⟩] ∧ (node.findAll .expressionList).length = 3 ∧
      Forest.expressions node.children = 2 := by
  constructor
  · have calls : (parseClass 12 (.ofTokens nestedCalls 0 6)).calls =
        [⟨"h", 4, 2⟩, ⟨"k", 5, 1⟩, ⟨"Sys.g", 3, 2⟩] := by
      decide +kernel
    obtain ⟨tree, nodes⟩ : ∃ tree, ((parseClass 12 (.ofTokens nestedCalls 0 6)).toOutcome {}).nodes = [tree] :=
      List.length_eq_one_iff.mp (by decide +kernel)
    have parsed := Visit.result_eq_ok_iff.mpr ⟨by decide +kernel, nodes⟩
    obtain ⟨lists, count⟩ := (calls_read_off_tree nestedCalls 0 6).1 12 tree parsed
    rw [calls] at lists count
    exact ⟨tree, parsed, lists, count.symm⟩
  · have noted : (argumentsSession.step (.rule .expressionList)).2.calls =
        argumentsSession.calls ++ [⟨"h", 4, 2⟩, ⟨"k", 5, 1⟩] := by
      decide +kernel
    have counted : (Procedure.rule .expressionList).argumentCount?
        (argumentsSession.step (.rule .expressionList)).1 = some 2 := by
      decide +kernel
    obtain ⟨node, new, nodes, calls, lists, lists', arguments⟩ :=
      (calls_read_off_tree (nestedCalls.drop 14) 0 6).2 argumentsSession _ (.rule .expressionList) _ rfl nofun
        rfl (by decide +kernel)
    obtain rfl := List.append_cancel_left (calls.symm.trans noted)
    exact ⟨node, nodes, lists, lists', Option.some.inj ((arguments rfl).symm.trans counted)⟩

end Jack
