import Jack.Parse.Session
import Jack.Proofs.Parse.Counter
import Jack.Proofs.Parse.Exactness
import Jack.Proofs.Parse.Locality

/-!
# Every step leaves a clean parser

However many procedures a parser has performed, and whether or not they failed, the next one does what it
does on a new parser that is given the tokens that are still unread.
-/

namespace Jack

namespace Procedure

def phrase : Procedure → Phrase
  | .rule r => .rule r
  | .statement => Grammar.statement
  | .call _ => Grammar.callTail

/-- What is known when the procedure begins: a call is made on its receiver. -/
def locals : Procedure → Locals
  | .rule _ | .statement => {}
  | .call receiver => { receiver? := some receiver }

theorem run_eq (limit : Nat) (procedure : Procedure) (c : Cursor) :
    procedure.run limit c = procedure.phrase.run (Rule.visit limit limit) procedure.locals c := by
  cases procedure <;> rfl

theorem eof_not_mem_kindsRead (procedure : Procedure) : .eof ∉ procedure.phrase.kindsRead := by
  cases procedure with
  | rule r => exact List.not_mem_nil
  | statement => decide
  | call receiver => exact show .eof ∉ Grammar.callTail.kindsRead by decide

theorem advances_phrase (procedure : Procedure) : procedure.phrase.advances = true := by
  cases procedure with
  | rule r => rfl
  | statement => decide
  | call receiver => exact show Grammar.callTail.advances = true by decide

theorem counted_iff (procedure : Procedure) (limit : Nat) {left : Nat} {c : Cursor} {o : Outcome}
    (closed : c.Closed) :
    Phrase.Counted limit procedure.phrase 0 procedure.locals c o left ↔
      o = procedure.run limit c ∧ left = 0 := by
  rw [run_eq]
  exact Phrase.counted_iff (Nat.zero_add limit) closed procedure.eof_not_mem_kindsRead
    procedure.advances_phrase

theorem argumentCount?_congr (procedure : Procedure) {o other : Outcome} (locals : other.locals = o.locals)
    (failure : other.failure? = o.failure?) :
    procedure.argumentCount? other = procedure.argumentCount? o := by
  rw [argumentCount?, argumentCount?, locals, failure]

end Procedure

/-- A session whose parser counts the rules that are open. -/
structure Parser extends Session where
  depth : Nat

namespace Parser

def start (limit : Nat) (stream : TokenStream) : Parser := ⟨.start limit stream, 0⟩

/-- Performing a procedure, from where the parser stands and with its counter as it is. -/
inductive Performs (p : Parser) (procedure : Procedure) : Outcome → Parser → Prop where
  | step {o : Outcome} {left : Nat}
      (counted : Phrase.Counted p.limit procedure.phrase p.depth procedure.locals p.cursor o left) :
      Performs p procedure o
        ⟨{ p.toSession with cursor := o.cursor, journal := p.journal ++ o.journal }, left⟩

/-- The parser after any procedures in any order, each of which may have failed. -/
inductive Reached (first : Parser) : Parser → Prop where
  | start : Reached first first
  | step {p q : Parser} {procedure : Procedure} {o : Outcome} (reached : Reached first p)
      (performs : p.Performs procedure o q) : Reached first q

/-- The procedure was performed from `p` to `q` as by a new parser, and it left nothing else behind. -/
structure CleanStep (limit endOffset endLine : Nat) (p : Parser) (procedure : Procedure) (o : Outcome)
    (q : Parser) : Prop where
  depth : q.depth = 0
  sameLimit : q.limit = limit
  calls : p.calls <+: q.calls
  unread : q.cursor.unread <:+ p.cursor.unread
  found : ∀ d, o.failure? = some d → ∃ violation, d = .grammar violation q.cursor.peek
  fresh : ∃ other r,
    (start limit (.ofTokens p.cursor.unread endOffset endLine)).Performs procedure other r ∧
    o.nodes = other.nodes ∧ o.failure? = other.failure? ∧
    procedure.argumentCount? o = procedure.argumentCount? other ∧ q.calls = p.calls ++ r.calls

/-! ## One step -/

theorem performs_iff {p q : Parser} {procedure : Procedure} {o : Outcome} (closed : p.cursor.Closed)
    (idle : p.depth = 0) :
    p.Performs procedure o q ↔ p.toSession.step procedure = (o, q.toSession) ∧ q.depth = 0 := by
  obtain ⟨before, depth⟩ := p
  obtain rfl : depth = 0 := idle
  constructor
  · rintro ⟨counted⟩
    obtain ⟨rfl, rfl⟩ := (procedure.counted_iff before.limit closed).mp counted
    exact ⟨rfl, rfl⟩
  · obtain ⟨after, depth⟩ := q
    rintro ⟨step, rfl⟩
    simp only [Session.step, Prod.mk.injEq] at step
    obtain ⟨rfl, rfl⟩ := step
    exact .step ((procedure.counted_iff before.limit closed).mpr ⟨rfl, rfl⟩)

theorem calls_step (s : Session) (procedure : Procedure) :
    (s.step procedure).2.calls =
      s.calls ++ (procedure.run s.limit s.cursor).journal.filterMap Event.call? := by
  simp [Session.step, Session.calls]

end Parser

theorem Cursor.alike_atStart {c : Cursor} {endOffset endLine : Nat}
    (ends : c.stream.endToken = .endOfInput endOffset endLine) :
    c.Alike [] [] (.atStart (.ofTokens c.unread endOffset endLine)) :=
  ⟨⟨c.unread, (List.append_nil _).symm, (List.append_nil _).symm⟩, ends⟩

theorem Procedure.run_sound (procedure : Procedure) (limit : Nat) {c : Cursor} (closed : c.Closed) :
    procedure.phrase.Sound c (procedure.run limit c) := by
  rw [procedure.run_eq]
  exact (Phrase.runs_run _ procedure.phrase procedure.locals c).sound (Rule.visit_sound limit limit) closed
    procedure.eof_not_mem_kindsRead

theorem Procedure.run_alike (procedure : Procedure) (limit : Nat) {c : Cursor} {endOffset endLine : Nat}
    (ends : c.stream.endToken = .endOfInput endOffset endLine) :
    (procedure.run limit c).Alike [] []
      (procedure.run limit (.atStart (.ofTokens c.unread endOffset endLine))) := by
  have closed : c.Closed := by rw [Cursor.Closed, ends]; rfl
  obtain ⟨other, runs, alike⟩ :=
    (Phrase.runs_run (Rule.visit limit limit) procedure.phrase procedure.locals c).alike
      (Rule.visit_sound limit limit) (Rule.visit_alike limit limit) closed procedure.eof_not_mem_kindsRead
      (Cursor.alike_atStart ends) List.nil_suffix
  rw [procedure.run_eq, procedure.run_eq, runs.eq_run]
  exact alike

namespace Parser

/-- Nothing is left from what the parser did before. -/
structure Idle (limit endOffset endLine : Nat) (p : Parser) : Prop where
  depth : p.depth = 0
  limit : p.limit = limit
  ends : p.cursor.stream.endToken = .endOfInput endOffset endLine

variable {limit endOffset endLine : Nat} {p q : Parser} {procedure : Procedure} {o : Outcome}

theorem Idle.closed (idle : p.Idle limit endOffset endLine) : p.cursor.Closed := by
  rw [Cursor.Closed, idle.ends]
  rfl

theorem idle_start (tokens : List Token) (endOffset endLine limit : Nat) :
    (start limit (.ofTokens tokens endOffset endLine)).Idle limit endOffset endLine :=
  ⟨rfl, rfl, rfl⟩

theorem Idle.step (idle : p.Idle limit endOffset endLine) (performs : p.Performs procedure o q) :
    q.Idle limit endOffset endLine := by
  obtain ⟨step, depth⟩ := (performs_iff idle.closed idle.depth).mp performs
  obtain ⟨_, passes⟩ := (procedure.run_sound p.limit idle.closed).passes
  simp only [Session.step, Prod.mk.injEq] at step
  obtain ⟨-, same⟩ := step
  refine ⟨depth, ?_, ?_⟩
  · rw [← same]
    exact idle.limit
  · rw [← same, passes.endToken]
    exact idle.ends

theorem Idle.reached (idle : p.Idle limit endOffset endLine) (reached : p.Reached q) :
    q.Idle limit endOffset endLine := by
  induction reached with
  | start => exact idle
  | step _ performs ih => exact ih.step performs

theorem Idle.cleanStep (idle : p.Idle limit endOffset endLine) (performs : p.Performs procedure o q) :
    p.CleanStep limit endOffset endLine procedure o q := by
  have idle' := idle.step performs
  obtain ⟨step, -⟩ := (performs_iff idle.closed idle.depth).mp performs
  have calls := calls_step p.toSession procedure
  rw [step] at calls
  simp only [Session.step, Prod.mk.injEq] at step
  obtain ⟨rfl, same⟩ := step
  have sound := procedure.run_sound p.limit idle.closed
  have alike := procedure.run_alike p.limit idle.ends
  have cursor : q.cursor = (procedure.run p.limit p.cursor).cursor := by rw [← same]
  refine ⟨idle'.depth, idle'.limit, ⟨_, calls.symm⟩, ?_, ?_, ?_⟩
  · obtain ⟨tokens, passes⟩ := sound.passes
    rw [cursor]
    exact ⟨tokens, passes.unread.symm⟩
  · intro d failure
    rw [cursor]
    exact sound.found d failure
  · -- Only the token read last tells the two cursors apart, and no procedure looks at it.
    rw [idle.limit] at alike calls
    have new := idle_start p.cursor.unread endOffset endLine limit
    refine ⟨_, ⟨((start limit _).toSession.step procedure).2, 0⟩,
      (performs_iff new.closed new.depth).mpr ⟨rfl, rfl⟩, ?_, ?_, ?_, ?_⟩
    · rw [idle.limit]
      exact alike.nodes.symm
    · rw [idle.limit]
      exact alike.failure.symm
    · rw [idle.limit]
      exact (procedure.argumentCount?_congr alike.locals alike.failure).symm
    · rw [calls, calls_step, ← alike.journal]
      rfl

theorem reached_clean (tokens : List Token) (endOffset endLine limit : Nat) (p : Parser)
    (reached : (start limit (.ofTokens tokens endOffset endLine)).Reached p) (procedure : Procedure) :
    (∃ o q, p.Performs procedure o q) ∧
    ∀ o q, p.Performs procedure o q → p.toSession.step procedure = (o, q.toSession) ∧
      p.CleanStep limit endOffset endLine procedure o q := by
  have idle := (idle_start tokens endOffset endLine limit).reached reached
  constructor
  · exact ⟨_, ⟨(p.toSession.step procedure).2, 0⟩,
      (performs_iff idle.closed idle.depth).mpr ⟨rfl, rfl⟩⟩
  · intro o q performs
    exact ⟨((performs_iff idle.closed idle.depth).mp performs).1, idle.cleanStep performs⟩

/-- `-(x;` -/
def openNegation : List Token :=
  [.bare (.symbol .minus), .bare (.symbol .lParen), .bare .ident, .bare (.symbol .semicolon)]

/-- The parser after it has failed on `x`, with three rules open and no room for a fourth. -/
def interrupted : Parser :=
  ⟨((Session.start 3 (.ofTokens openNegation 0 1)).step (.rule .expression)).2, 0⟩

theorem reached_clean_interrupted :
    (start 3 (.ofTokens openNegation 0 1)).Reached interrupted ∧
    interrupted.cursor.unread = [.bare .ident, .bare (.symbol .semicolon)] ∧
    ∃ o q, interrupted.Performs (.rule .term) o q ∧ o.failure? = none ∧
      o.nodes = [.branch .term [.leaf (.bare .ident)]] ∧
      interrupted.CleanStep 3 0 1 (.rule .term) o q := by
  have first := idle_start openNegation 0 1 3
  have reached : (start 3 (.ofTokens openNegation 0 1)).Reached interrupted :=
    .step .start ((performs_iff first.closed first.depth).mpr ⟨rfl, rfl⟩)
  obtain ⟨⟨o, q, performs⟩, steps⟩ := reached_clean openNegation 0 1 3 interrupted reached (.rule .term)
  obtain ⟨step, clean⟩ := steps o q performs
  have outcome : (interrupted.toSession.step (.rule .term)).1 = o := by rw [step]
  refine ⟨reached, by decide +kernel, o, q, performs, ?_, ?_, clean⟩
  · rw [← outcome]
    decide +kernel
  · rw [← outcome]
    decide +kernel

end Parser

end Jack
