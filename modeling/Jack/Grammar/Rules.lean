import Jack.Grammar.Phrase

/-!
# The grammar

The right-hand side of every rule, and the two phrases without a node of their own: statements and
subroutine calls.
-/

namespace Jack

namespace Grammar

def typeKinds : List Kind := [.keyword .int, .keyword .char, .keyword .boolean, .ident]

def returnTypeKinds : List Kind := .keyword .void :: typeKinds

def classVarKinds : List Kind := [.keyword .field, .keyword .static]

def subroutineKinds : List Kind := [.keyword .constructor, .keyword .function, .keyword .method]

def keywordConstants : List Kind := [.keyword .true, .keyword .false, .keyword .null, .keyword .this]

def unaryOps : List Kind := [.symbol .minus, .symbol .tilde]

open Phrase

def statementRules : List (Kind × Phrase) :=
  [(.keyword .let, .rule .letStatement), (.keyword .if, .rule .ifStatement),
    (.keyword .while, .rule .whileStatement), (.keyword .do, .rule .doStatement),
    (.keyword .return, .rule .returnStatement)]

def statementKinds : List Kind := statementRules.map Prod.fst

def statement : Phrase := oneOf statementRules

def block : Phrase := braced (.rule .statements)

def arguments : Phrase := parenthesized (.rule .expressionList)

/-- What follows the leading identifier of a subroutine call. -/
def callTail : Phrase :=
  .noted .call (oneOf [(.symbol .lParen, arguments),
    (.symbol .dot, sequence [symbol .dot, .noted .method identifier, arguments])])

end Grammar

namespace Rule

open Grammar Phrase

def body : Rule → Phrase
  | .class =>
    sequence [keyword .class, identifier, symbol .lBrace, .many classVarKinds (.rule .classVarDec),
      .many subroutineKinds (.rule .subroutineDec), symbol .rBrace]
  | .classVarDec =>
    sequence [.token classVarKinds, .token typeKinds, commaSeparated identifier, symbol .semicolon]
  | .subroutineDec =>
    sequence [.token subroutineKinds, .token returnTypeKinds, identifier,
      parenthesized (.rule .parameterList), .rule .subroutineBody]
  | .parameterList =>
    unlessNext [.symbol .rParen] (commaSeparated (sequence [.token typeKinds, identifier]))
  | .subroutineBody =>
    braced (sequence [.many [.keyword .var] (.rule .varDec), .rule .statements])
  | .varDec =>
    sequence [keyword .var, .token typeKinds, commaSeparated identifier, symbol .semicolon]
  | .statements => .many statementKinds statement
  | .letStatement =>
    sequence [keyword .let, identifier, ifNext [.symbol .lBracket] (bracketed (.rule .expression)),
      symbol .eq, .rule .expression, symbol .semicolon]
  | .ifStatement =>
    sequence [keyword .if, parenthesized (.rule .expression), block,
      ifNext [.keyword .else] (sequence [keyword .else, block])]
  | .whileStatement => sequence [keyword .while, parenthesized (.rule .expression), block]
  | .doStatement =>
    sequence [keyword .do, .noted .receiver identifier, callTail, symbol .semicolon]
  | .returnStatement =>
    sequence [keyword .return, unlessNext [.symbol .semicolon] (.rule .expression), symbol .semicolon]
  | .expression =>
    sequence [.rule .term, .many Kind.binaryOps (sequence [.token Kind.binaryOps, .rule .term])]
  | .term =>
    .choose [.intConst, .strConst] (.token [.intConst, .strConst]) <|
    .choose keywordConstants (.token keywordConstants) <|
    .choose [.ident]
      (sequence [.noted .receiver identifier,
        .choose [.symbol .lParen, .symbol .dot] callTail <|
        ifNext [.symbol .lBracket] (bracketed (.rule .expression))]) <|
    .choose [.symbol .lParen] (parenthesized (.rule .expression)) <|
    .choose unaryOps (sequence [.token unaryOps, .rule .term]) <|
    .refuse .termExpected
  | .expressionList => unlessNext [.symbol .rParen] (commaSeparated (.noted .argument (.rule .expression)))

end Rule

end Jack
