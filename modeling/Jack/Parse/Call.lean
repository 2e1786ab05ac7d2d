import Jack.Grammar.Phrase

/-!
# Subroutine calls

A call is put together while it is read: from the identifier it is made on, from the name behind its dot if
it has one, and from the number of arguments counted so far.
-/

namespace Jack

/-- A subroutine call: the name it is made under, the line of its first identifier, and the number of
arguments it passes. -/
structure Call where
  name : String
  line : Nat
  arity : Nat
deriving DecidableEq, Repr, Inhabited

/-- What the procedure of a rule keeps beside the nodes it reads. -/
structure Locals where
  receiver? : Option Token := none
  method? : Option String := none
  count : Nat := 0
deriving DecidableEq, Repr, Inhabited

namespace Locals

/-- The call on the receiver, once its arguments are counted. An unqualified call passes its object as one
more argument. -/
def call? (k : Locals) : Option Call :=
  match k.receiver?, k.method? with
  | none, _ => none
  | some receiver, none => some ⟨receiver.lexeme, receiver.line, k.count + 1⟩
  | some receiver, some method =>
    some ⟨String.join [receiver.lexeme, ".", method], receiver.line, k.count⟩

/-- Goes on after a phrase that began at the given token. Whoever reads a call is told what it passes. -/
def note (k : Locals) (first : Token) : Note → Locals
  | .receiver => { k with receiver? := some first }
  | .method => { k with method? := some first.lexeme }
  | .argument => { k with count := k.count + 1 }
  | .call => { k with count := (k.call?.map Call.arity).getD k.count }

end Locals

end Jack
