import Jack.Proofs.Parse.CleanSteps
import Jack.Proofs.Parse.NestingLimit

/-!
# Every procedure reads the longest phrase

Wherever a procedure is performed, it reads nodes that the grammar derives and exactly their tokens, and no
longer stretch of what it had before it could have been read. Nothing is asked of the tokens that follow: a
longer phrase would be read in full before a token that may follow it, and up to its end no procedure can
tell the two sources apart.
-/

namespace Jack

/-! ## No end of input is read -/

def Cursor.Crosses (c d : Cursor) : Prop :=
  ∃ tokens, c.Passes tokens d ∧ ∀ token ∈ tokens, token.kind ≠ .eof

namespace Cursor.Crosses

variable {c d e : Cursor}

theorem refl (c : Cursor) : c.Crosses c := ⟨[], .refl c, by simp⟩

theorem trans (first : c.Crosses d) (second : d.Crosses e) : c.Crosses e := by
  obtain ⟨tokens, passes, real⟩ := first
  obtain ⟨more, passes', real'⟩ := second
  exact ⟨tokens ++ more, passes.trans passes', List.forall_mem_append.mpr ⟨real, real'⟩⟩

theorem closed (crosses : c.Crosses d) (closed : c.Closed) : d.Closed := by
  obtain ⟨_, passes, _⟩ := crosses
  exact passes.closed closed

end Cursor.Crosses

theorem Phrase.Runs.crosses {visit : Rule → Cursor → Visit}
    (rules : ∀ (r : Rule) (c : Cursor), c.Closed → c.Crosses (visit r c).cursor) {phrase : Phrase}
    {k : Locals} {c : Cursor} {o : Outcome} (runs : Runs visit phrase k c o) (closed : c.Closed)
    (real : .eof ∉ phrase.kindsRead) : c.Crosses o.cursor := by
  induction runs with
  | nothing | refuse | missed | done => exact .refl _
  | @read kinds k c member =>
      have token : c.peek.kind ≠ .eof := fun same => real (same ▸ member)
      exact ⟨[c.peek], Cursor.passes_advance closed token, by simpa using token⟩
  | rule r k c =>
      rw [Visit.cursor_toOutcome]
      exact rules r c closed
  | cut _ _ ih => exact ih closed fun member => real (List.mem_append_left _ member)
  | andThen _ _ _ ihFirst ihSecond =>
      have first := ihFirst closed fun member => real (List.mem_append_left _ member)
      exact first.trans (ihSecond (first.closed closed) fun member => real (List.mem_append_right _ member))
  | chosen _ _ ih => exact ih closed fun member => real (List.mem_append_left _ member)
  | otherwise _ _ ih => exact ih closed fun member => real (List.mem_append_right _ member)
  | last _ _ _ ih => exact ih closed real
  | again _ _ _ _ _ ihFirst ihRest =>
      have first := ihFirst closed real
      exact first.trans (ihRest (first.closed closed) real)
  | noted _ ih =>
      rw [Outcome.cursor_noted]
      exact ih closed real

theorem Rule.visit_crosses (limit room : Nat) (rule : Rule) (c : Cursor) (closed : c.Closed) :
    c.Crosses (rule.visit limit room c).cursor := by
  induction room generalizing rule c with
  | zero => exact .refl c
  | succ room ih =>
      rw [Rule.visit]
      exact (Phrase.runs_run _ rule.body {} c).crosses ih closed rule.eof_not_mem_kindsRead

/-! ## Longer phrases -/

namespace Phrase

theorem Spells.runs_before {limit : Nat} {phrase : Phrase} {nodes : List Node} {follower : Token}
    (spells : phrase.Spells (nodes.map Node.label)) (derived : ∀ node ∈ nodes, node.Derived)
    (fits : Forest.depth nodes ≤ limit) (predictive : phrase.Predictive [follower.kind]) (k : Locals)
    {d : Cursor} (closed : d.Closed) (unread : d.unread = Forest.tokens nodes ++ [follower]) :
    ∃ p, Runs (Rule.visit limit limit) phrase k d p ∧ p.cursor.unread = [follower] := by
  obtain ⟨p, runs, takes⟩ := spells.takes (Rule.visit_takes limit limit) derived closed unread
    (List.mem_singleton_self follower.kind) predictive
  cases takes with
  | whole _ _ _ passes => exact ⟨p, runs, List.append_cancel_left (passes.unread.symm.trans unread)⟩
  | cut deep => omega

theorem Runs.length_le {limit : Nat} {phrase : Phrase} {k : Locals} {c : Cursor} {o : Outcome}
    (runs : Runs (Rule.visit limit limit) phrase k c o) (closed : c.Closed)
    (real : .eof ∉ phrase.kindsRead) (success : o.failure? = none) (follower : Token)
    (predictive : phrase.Predictive [follower.kind]) {nodes : List Node}
    (spells : phrase.Spells (nodes.map Node.label)) (derived : ∀ node ∈ nodes, node.Derived)
    (starts : Forest.tokens nodes <+: c.unread) :
    (Forest.tokens nodes).length ≤ (Forest.tokens o.nodes).length := by
  have passes := (runs.sound (Rule.visit_sound limit limit) closed real).tokens success
  rcases Nat.lt_or_ge (Forest.tokens o.nodes).length (Forest.tokens nodes).length with longer | done
  · -- With the follower behind the longer phrase, and a limit that has room for it, it is read in full.
    let larger := max limit (Forest.depth nodes)
    let d := Cursor.atStart (.ofTokens (Forest.tokens nodes ++ [follower]) 0 0)
    obtain ⟨p, runs', ended⟩ := spells.runs_before derived (Nat.le_max_right limit _) predictive k
      (Cursor.closed_atStart _ _ _ : d.Closed) rfl
    have wide : Runs (Rule.visit larger larger) phrase k c o :=
      runs.of_visit (fun r k c => Rule.visit_mono (Nat.le_max_left limit _) r k c)
        (Outcome.not_tooDeep_of_success success)
    -- What the procedure read is the same in both sources, and so is the token it stopped at.
    obtain ⟨more, split⟩ :=
      List.prefix_of_prefix_length_le ⟨_, passes.unread.symm⟩ starts (Nat.le_of_lt longer)
    have proper : more ≠ [] := by
      rintro rfl
      rw [← split, List.append_nil] at longer
      exact Nat.lt_irrefl _ longer
    obtain ⟨rest, whole⟩ := starts
    have unread : o.cursor.unread = more ++ rest := by
      rw [← split, List.append_assoc, passes.unread] at whole
      exact (List.append_cancel_left whole).symm
    have alike : c.Alike o.cursor.unread (more ++ [follower]) d := by
      refine ⟨⟨Forest.tokens o.nodes, passes.unread, ?_⟩, ?_⟩
      · rw [← List.append_assoc, split]
        rfl
      · obtain ⟨token, others, rfl⟩ := List.exists_cons_of_ne_nil proper
        rw [unread]
        rfl
    obtain ⟨q, runs'', same⟩ := wide.alike (Rule.visit_sound larger larger)
      (Rule.visit_alike larger larger) closed real alike (List.suffix_refl _)
    obtain ⟨between, before, after⟩ := same.cursor.split
    obtain rfl : between = [] := List.self_eq_append_left.mp before
    rw [← runs''.eq_run, runs'.eq_run, ended] at after
    exact absurd (by simpa using after) proper
  · exact done

end Phrase

/-! ## Procedures -/

namespace Procedure

/-- The nodes are a derivation of what the procedure reads. -/
def Derives : Procedure → List Node → Prop
  | .rule r, nodes => ∃ node, nodes = [node] ∧ r.Derives node
  | .statement, nodes => ∃ r node, nodes = [node] ∧ Grammar.Statement [.rule r] ∧ r.Derives node
  | .call _, nodes => Grammar.SubroutineCall (nodes.map Node.label) ∧ ∀ node ∈ nodes, node.Derived

theorem derives_iff {procedure : Procedure} {nodes : List Node} :
    procedure.Derives nodes ↔
      procedure.phrase.Spells (nodes.map Node.label) ∧ ∀ node ∈ nodes, node.Derived := by
  cases procedure with
  | rule r =>
      rw [phrase, Phrase.spells_rule, List.map_eq_singleton_iff]
      constructor
      · rintro ⟨node, rfl, label, derived⟩
        exact ⟨⟨node, rfl, label⟩, by simpa using derived⟩
      · rintro ⟨⟨node, rfl, label⟩, derived⟩
        exact ⟨node, rfl, label, derived node (by simp)⟩
  | statement =>
      rw [phrase, Grammar.spells_statement]
      constructor
      · rintro ⟨r, node, rfl, statement, label, derived⟩
        exact ⟨by simpa [label] using statement, by simpa using derived⟩
      · rintro ⟨statement, derived⟩
        obtain ⟨r, single⟩ : ∃ r, nodes.map Node.label = [.rule r] := by
          generalize nodes.map Node.label = labels at statement
          cases statement <;> exact ⟨_, rfl⟩
        obtain ⟨node, rfl, label⟩ := List.map_eq_singleton_iff.mp single
        exact ⟨r, node, rfl, single ▸ statement, label, derived node (by simp)⟩
  | call receiver =>
      rw [phrase, Grammar.spells_callTail]
      exact Iff.rfl

/-- A kind of token that may follow what the procedure reads. -/
def follower : Procedure → Kind
  | .rule r => r.follow.headD .eof
  | .statement => .symbol .rBrace
  | .call _ => .symbol .semicolon

theorem predictive_follower (procedure : Procedure) :
    procedure.phrase.Predictive [procedure.follower] := by
  cases procedure with
  | rule r => cases r <;> decide
  | statement => decide
  | call receiver => exact show Grammar.callTail.Predictive [.symbol .semicolon] by decide

variable (procedure : Procedure)

theorem run_crosses (limit : Nat) {c : Cursor} (closed : c.Closed) :
    c.Crosses (procedure.run limit c).cursor := by
  rw [procedure.run_eq]
  exact (Phrase.runs_run _ procedure.phrase procedure.locals c).crosses (Rule.visit_crosses limit limit) closed
    procedure.eof_not_mem_kindsRead

theorem longest_phrase (limit : Nat) (tokens : List Token) (endOffset endLine : Nat)
    (current : Option Token) :
    let c : Cursor := ⟨.ofTokens tokens endOffset endLine, current⟩
    let o := procedure.run limit c
    c.Crosses o.cursor ∧ (o.failure? = none →
      procedure.Derives o.nodes ∧ c.Passes (Forest.tokens o.nodes) o.cursor ∧
      ∀ nodes, procedure.Derives nodes → Forest.tokens nodes <+: tokens →
        (Forest.tokens nodes).length ≤ (Forest.tokens o.nodes).length) := by
  intro c o
  have closed : c.Closed := rfl
  refine ⟨procedure.run_crosses limit closed, ?_⟩
  intro success
  have sound := procedure.run_sound limit closed
  rw [derives_iff]
  refine ⟨⟨sound.spells success, sound.derived success⟩, sound.tokens success, ?_⟩
  intro nodes derives starts
  obtain ⟨spells, derived⟩ := derives_iff.mp derives
  have runs : Phrase.Runs (Rule.visit limit limit) procedure.phrase procedure.locals c o := by
    have same : o = _ := procedure.run_eq limit c
    rw [same]
    exact Phrase.runs_run _ _ _ c
  exact runs.length_le closed procedure.eof_not_mem_kindsRead success (.bare procedure.follower)
    procedure.predictive_follower spells derived starts

/-- `if (x) { } else { }`, an end of input, and one more `else` -/
def danglingElse : List Token :=
  [.bare (.keyword .if), .bare (.symbol .lParen), .bare .ident, .bare (.symbol .rParen),
    .bare (.symbol .lBrace), .bare (.symbol .rBrace), .bare (.keyword .else), .bare (.symbol .lBrace),
    .bare (.symbol .rBrace), .bare .eof, .bare (.keyword .else)]

def danglingElseRead : Outcome := Procedure.statement.run 3 ⟨.ofTokens danglingElse 0 1, none⟩

-- The tokens before the first `else` are a statement as well, but not the longest one.
theorem longest_phrase_danglingElse :
    danglingElseRead.failure? = none ∧ danglingElseRead.cursor.unread = danglingElse.drop 9 ∧
    danglingElseRead.cursor.current = some (.bare (.symbol .rBrace)) ∧
    Procedure.statement.Derives danglingElseRead.nodes ∧
    ∀ nodes, Procedure.statement.Derives nodes → Forest.tokens nodes <+: danglingElse →
      (Forest.tokens nodes).length ≤ 9 := by
  have success : danglingElseRead.failure? = none := by decide +kernel
  have count : (Forest.tokens danglingElseRead.nodes).length = 9 := by decide +kernel
  obtain ⟨derives, _, longest⟩ := (Procedure.statement.longest_phrase 3 danglingElse 0 1 none).2 success
  refine ⟨success, by decide +kernel, by decide +kernel, derives, ?_⟩
  intro nodes derives' starts
  rw [← count]
  exact longest nodes derives' starts

end Procedure

end Jack
