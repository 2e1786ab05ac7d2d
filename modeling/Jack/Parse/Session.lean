import Jack.Parse.Run

/-!
# Sessions

A session reads one stream by several procedures, one after the other. A procedure that fails leaves the
cursor at the token it failed on, and the next one goes on from there.
-/

namespace Jack

inductive Procedure where
  | rule (rule : Rule)
  | statement
  /-- What follows an identifier that was read before, as a subroutine call on it. -/
  | call (receiver : Token)
deriving DecidableEq, Repr, Inhabited

namespace Procedure

def run (limit : Nat) : Procedure → Cursor → Outcome
  | .rule r, c => (r.parse limit c).toOutcome {}
  | .statement, c => Grammar.statement.parse limit {} c
  | .call receiver, c => Grammar.callTail.parse limit { receiver? := some receiver } c

/-- Whether the procedure gives a number of arguments, and not only nodes. -/
def counts : Procedure → Bool
  | .rule .expressionList | .call _ => true
  | .rule _ | .statement => false

/-- The number of arguments that a successful outcome of the procedure comes with. -/
def argumentCount? (procedure : Procedure) (o : Outcome) : Option Nat :=
  if procedure.counts && o.failure?.isNone then some o.locals.count else none

end Procedure

structure Session where
  cursor : Cursor
  limit : Nat
  journal : List Event
deriving DecidableEq, Repr, Inhabited

namespace Session

def start (limit : Nat) (stream : TokenStream) : Session := ⟨.atStart stream, limit, []⟩

def calls (s : Session) : List Call := s.journal.filterMap Event.call?

def step (s : Session) (procedure : Procedure) : Outcome × Session :=
  let o := procedure.run s.limit s.cursor
  (o, { s with cursor := o.cursor, journal := s.journal ++ o.journal })

/-- Runs some procedures in turn, and gives each outcome with the session after it. -/
def run (s : Session) : List Procedure → List (Outcome × Session)
  | [] => []
  | procedure :: rest => s.step procedure :: (s.step procedure).2.run rest

end Session

end Jack
