import Jack.Grammar.Rules
import Jack.Parse.Outcome

/-!
# Parsing

The grammar is read as a program: a phrase runs on a cursor, and a rule runs its right-hand side with
locals of its own. The nesting limit is the number of rules that may be open at once; each rule passes on what
is left of it, and this is what parsing recurs on.
-/

namespace Jack

/-- Runs a reader again and again while the next token is of one of the given kinds. A round that reads
nothing is the last one. -/
def repeatWhile (kinds : List Kind) (round : Locals → Cursor → Outcome) (k : Locals) (c : Cursor) : Outcome :=
  if c.peek.kind ∈ kinds then
    let o := round k c
    if _ : o.failure?.isNone ∧ o.cursor.unread.length < c.unread.length then
      o.andThen fun _ _ => repeatWhile kinds round o.locals o.cursor
    else o
  else .nothing k c
termination_by c.unread.length
decreasing_by
  rename_i progress
  exact progress.2

/-- Reads a phrase; `visit` reads the rules in it. -/
def Phrase.run (visit : Rule → Cursor → Visit) : Phrase → Locals → Cursor → Outcome
  | .nothing, k, c => .nothing k c
  | .refuse violation, k, c => .failed violation k c
  | .token kinds, k, c => if c.peek.kind ∈ kinds then .token k c else .failed (.unexpected kinds) k c
  | .rule r, k, c => (visit r c).toOutcome k
  | .andThen front back, k, c => (front.run visit k c).andThen (back.run visit)
  | .choose kinds chosen otherwise, k, c =>
    if c.peek.kind ∈ kinds then chosen.run visit k c else otherwise.run visit k c
  | .many kinds round, k, c => repeatWhile kinds (round.run visit) k c
  | .noted note body, k, c => (body.run visit k c).noted c.peek note

/-- Reads a rule, when at most `room` rules may be open at once from here on; `limit` is what that number
was at the outset. -/
def Rule.visit (limit : Nat) : (room : Nat) → Rule → Cursor → Visit
  | 0, _, c => .refused (.tooDeep limit) c
  | room + 1, rule, c => (rule.body.run (Rule.visit limit room) {} c).enclose rule c.peek

def Rule.parse (limit : Nat) (rule : Rule) (c : Cursor) : Visit := rule.visit limit limit c

def Phrase.parse (limit : Nat) (phrase : Phrase) (k : Locals) (c : Cursor) : Outcome :=
  phrase.run (fun rule => rule.parse limit) k c

/-- Reads the class at the start of a stream. Tokens after its closing brace are left unread. -/
def parseClass (limit : Nat) (stream : TokenStream) : Visit := Rule.class.parse limit (.atStart stream)

end Jack
