import Jack.Parse.Call
import Jack.Token.Cursor
import Jack.Tree.Node

/-!
# Outcomes of parsing

Reading a phrase yields nodes, reading a rule yields one node. Both may fail part of the way: what was
read and noted up to then stays.
-/

namespace Jack

inductive Event where
  | enter (rule : Rule) (line : Nat)
  | call (made : Call)
deriving DecidableEq, Repr, Inhabited

def Event.call? : Event → Option Call
  | .enter _ _ => none
  | .call made => some made

/-- What a note adds to the journal. -/
def Locals.events (k : Locals) : Note → List Event
  | .receiver | .method | .argument => []
  | .call => (k.call?.map Event.call).toList

/-- The outcome of reading a phrase: the nodes read, also if it failed after them, what happened, what the
procedure keeps beside the nodes, where the cursor stands, and the failure if there was one. -/
structure Outcome where
  nodes : List Node
  journal : List Event
  locals : Locals
  cursor : Cursor
  failure? : Option Diagnostic
deriving DecidableEq, Repr, Inhabited

/-- The outcome of reading a rule. A list of arguments also comes with their number. -/
structure Visit where
  result : Except Diagnostic Node
  journal : List Event
  count? : Option Nat
  cursor : Cursor
deriving Repr

namespace Outcome

def nothing (k : Locals) (c : Cursor) : Outcome := ⟨[], [], k, c, none⟩

def failed (violation : Violation) (k : Locals) (c : Cursor) : Outcome :=
  ⟨[], [], k, c, some (.grammar violation c.peek)⟩

def token (k : Locals) (c : Cursor) : Outcome := ⟨[.leaf c.peek], [], k, c.advance, none⟩

/-- Goes on from where an outcome left off, unless it failed. -/
def andThen (o : Outcome) (next : Locals → Cursor → Outcome) : Outcome :=
  match o.failure? with
  | some _ => o
  | none =>
    let later := next o.locals o.cursor
    { later with nodes := o.nodes ++ later.nodes, journal := o.journal ++ later.journal }

/-- What two outcomes come to, the second of which goes on from where the first left off. -/
def append (o later : Outcome) : Outcome :=
  { later with nodes := o.nodes ++ later.nodes, journal := o.journal ++ later.journal }

theorem andThen_of_failure {o : Outcome} {d : Diagnostic} (h : o.failure? = some d)
    (next : Locals → Cursor → Outcome) : o.andThen next = o := by
  simp [andThen, h]

theorem andThen_of_success {o : Outcome} (h : o.failure? = none) (next : Locals → Cursor → Outcome) :
    o.andThen next = o.append (next o.locals o.cursor) := by
  simp [andThen, append, h]

/-- Notes what was read from the given token on, unless it failed. -/
def noted (o : Outcome) (first : Token) (note : Note) : Outcome :=
  match o.failure? with
  | some _ => o
  | none => { o with journal := o.journal ++ o.locals.events note, locals := o.locals.note first note }

theorem noted_of_success {o : Outcome} (h : o.failure? = none) (first : Token) (note : Note) :
    o.noted first note =
      { o with journal := o.journal ++ o.locals.events note, locals := o.locals.note first note } := by
  simp [noted, h]

@[simp] theorem nodes_noted (o : Outcome) (first : Token) (note : Note) :
    (o.noted first note).nodes = o.nodes := by
  unfold noted
  split <;> rfl

@[simp] theorem cursor_noted (o : Outcome) (first : Token) (note : Note) :
    (o.noted first note).cursor = o.cursor := by
  unfold noted
  split <;> rfl

@[simp] theorem failure?_noted (o : Outcome) (first : Token) (note : Note) :
    (o.noted first note).failure? = o.failure? := by
  unfold noted
  split <;> rfl

/-- Makes the nodes the children of a rule that was entered before the given token. -/
def enclose (rule : Rule) (first : Token) (o : Outcome) : Visit where
  result := match o.failure? with
    | none => .ok (.branch rule o.nodes)
    | some d => .error d
  journal := .enter rule first.line :: o.journal
  count? := if rule = .expressionList then some o.locals.count else none
  cursor := o.cursor

end Outcome

namespace Visit

/-- Fails before the rule is entered. -/
def refused (violation : Violation) (c : Cursor) : Visit := ⟨.error (.grammar violation c.peek), [], none, c⟩

/-- A node alone is a phrase. The caller goes on with its own locals, and with the count it is given. -/
def toOutcome (v : Visit) (k : Locals) : Outcome :=
  match v.result with
  | .ok node => ⟨[node], v.journal, { k with count := v.count?.getD k.count }, v.cursor, none⟩
  | .error d => ⟨[], v.journal, k, v.cursor, some d⟩

@[simp] theorem cursor_toOutcome (v : Visit) (k : Locals) : (v.toOutcome k).cursor = v.cursor := by
  unfold toOutcome
  split <;> rfl

theorem result_eq_ok_iff {v : Visit} {node : Node} :
    v.result = .ok node ↔ (v.toOutcome {}).failure? = none ∧ (v.toOutcome {}).nodes = [node] := by
  unfold toOutcome
  split <;> simp_all

theorem result_eq_error_iff {v : Visit} {d : Diagnostic} :
    v.result = .error d ↔ (v.toOutcome {}).failure? = some d := by
  unfold toOutcome
  split <;> simp_all

theorem toOutcome_enclose (rule : Rule) (first : Token) (o : Outcome) (k : Locals) :
    (o.enclose rule first).toOutcome k =
      ⟨if o.failure? = none then [.branch rule o.nodes] else [], .enter rule first.line :: o.journal,
        if o.failure? = none ∧ rule = .expressionList then { k with count := o.locals.count } else k,
        o.cursor, o.failure?⟩ := by
  cases h : o.failure? <;> by_cases list : rule = .expressionList <;>
    simp [toOutcome, Outcome.enclose, h, list]

/-- The calls noted during the visit, in the order of their closing parentheses. -/
def calls (v : Visit) : List Call := v.journal.filterMap Event.call?

end Visit

end Jack
