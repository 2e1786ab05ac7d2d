/-!
# Grammar rules

The rules that have a node of their own in a syntax tree.
-/

namespace Jack

inductive Rule where
  | «class» | classVarDec | subroutineDec | parameterList | subroutineBody | varDec
  | statements | letStatement | ifStatement | whileStatement | doStatement | returnStatement
  | expression | term | expressionList
deriving DecidableEq, Repr, Inhabited

namespace Rule

def all : List Rule :=
  [.class, .classVarDec, .subroutineDec, .parameterList, .subroutineBody, .varDec, .statements,
    .letStatement, .ifStatement, .whileStatement, .doStatement, .returnStatement, .expression, .term,
    .expressionList]

def name : Rule → String
  | .class => "class"
  | .classVarDec => "classVarDec"
  | .subroutineDec => "subroutineDec"
  | .parameterList => "parameterList"
  | .subroutineBody => "subroutineBody"
  | .varDec => "varDec"
  | .statements => "statements"
  | .letStatement => "letStatement"
  | .ifStatement => "ifStatement"
  | .whileStatement => "whileStatement"
  | .doStatement => "doStatement"
  | .returnStatement => "returnStatement"
  | .expression => "expression"
  | .term => "term"
  | .expressionList => "expressionList"

def ofName? (name : String) : Option Rule := all.find? (·.name == name)

theorem mem_all (r : Rule) : r ∈ all := by cases r <;> decide

end Rule

end Jack
