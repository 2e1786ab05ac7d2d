import Jack.Diagnostic
import Jack.Tree.Rule

/-!
# Phrases

The right-hand sides of grammar rules, as data. Where a phrase offers a choice or a repetition, it says
which kinds of token select the alternative; one token of look-ahead decides.
-/

namespace Jack

/-- What is noted when a phrase was read. -/
inductive Note where
  /-- Its first token is the identifier that a call is made on. -/
  | receiver
  /-- Its first token names the method of a call. -/
  | method
  /-- It is one more argument. -/
  | argument
  /-- It was the rest of a call. -/
  | call
deriving DecidableEq, Repr, Inhabited

inductive Phrase where
  | nothing
  /-- Can never be read, and says why. -/
  | refuse (violation : Violation)
  | token (kinds : List Kind)
  | rule (rule : Rule)
  | andThen (front back : Phrase)
  /-- The first phrase before a token of one of the given kinds, and the second one otherwise. -/
  | choose (kinds : List Kind) (chosen otherwise : Phrase)
  /-- The phrase again and again, while the next token is of one of the given kinds. -/
  | many (kinds : List Kind) (round : Phrase)
  | noted (note : Note) (body : Phrase)
deriving DecidableEq, Repr, Inhabited

namespace Phrase

def sequence : List Phrase → Phrase
  | [] => .nothing
  | [phrase] => phrase
  | phrase :: rest => .andThen phrase (sequence rest)

/-- The phrase that the next token selects, or a refusal that names all kinds that would select one. -/
def oneOf (alternatives : List (Kind × Phrase)) : Phrase :=
  alternatives.foldr (fun (kind, phrase) otherwise => .choose [kind] phrase otherwise)
    (.refuse (.unexpected (alternatives.map Prod.fst)))

def ifNext (kinds : List Kind) (phrase : Phrase) : Phrase := .choose kinds phrase .nothing

/-- Nothing before a token of one of the given kinds, and the phrase otherwise. -/
def unlessNext (kinds : List Kind) (phrase : Phrase) : Phrase := .choose kinds .nothing phrase

def keyword (word : Keyword) : Phrase := .token [.keyword word]

def symbol (sign : Symbol) : Phrase := .token [.symbol sign]

def identifier : Phrase := .token [.ident]

def commaSeparated (phrase : Phrase) : Phrase :=
  sequence [phrase, .many [.symbol .comma] (sequence [symbol .comma, phrase])]

def parenthesized (phrase : Phrase) : Phrase := sequence [symbol .lParen, phrase, symbol .rParen]

def bracketed (phrase : Phrase) : Phrase := sequence [symbol .lBracket, phrase, symbol .rBracket]

def braced (phrase : Phrase) : Phrase := sequence [symbol .lBrace, phrase, symbol .rBrace]

end Phrase

end Jack
