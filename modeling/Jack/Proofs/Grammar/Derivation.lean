import Jack.Tree.Node

/-!
# Derivation trees

The grammar as a set of productions, with nothing said about how it is read: no look-ahead, no choice of
an alternative and no nesting limit. A right-hand side is a list of labels, and a tree is derived if the
labels below every branch are a right-hand side of its rule.
-/

namespace Jack

/-- What stands at one place of a right-hand side: a kind of token, or a rule. -/
inductive Label where
  | token (kind : Kind)
  | rule (rule : Rule)
deriving DecidableEq, Repr

def Node.label : Node → Label
  | .leaf token => .token token.kind
  | .branch rule _ => .rule rule

theorem Node.eq_leaf_of_label {node : Node} {kind : Kind} (h : node.label = .token kind) :
    ∃ token : Token, token.kind = kind ∧ node = .leaf token := by
  cases node with
  | leaf token => exact ⟨token, Label.token.inj h, rfl⟩
  | branch rule children => cases h

theorem Node.eq_branch_of_label {node : Node} {rule : Rule} (h : node.label = .rule rule) :
    ∃ children, node = .branch rule children := by
  cases node with
  | leaf token => cases h
  | branch r children =>
      cases h
      exact ⟨children, rfl⟩

namespace Grammar

abbrev word (keyword : Keyword) : Label := .token (.keyword keyword)

abbrev sign (symbol : Symbol) : Label := .token (.symbol symbol)

abbrev name : Label := .token .ident

/-! ## Parts of right-hand sides -/

inductive Repeated (Item : List Label → Prop) : List Label → Prop where
  | none : Repeated Item []
  | more {front back : List Label} (item : Item front) (rest : Repeated Item back) :
      Repeated Item (front ++ back)

/-- One item or more, with commas between. -/
inductive Listed (Item : List Label → Prop) : List Label → Prop where
  | items {front back : List Label} (item : Item front)
      (rest : Repeated (fun labels => ∃ next, Item next ∧ labels = sign .comma :: next) back) :
      Listed Item (front ++ back)

def typeNames : List Label := [word .int, word .char, word .boolean, name]

def resultTypes : List Label := word .void :: typeNames

def variableScopes : List Label := [word .field, word .static]

def subroutineFlavors : List Label := [word .constructor, word .function, word .method]

def binaryOperators : List Label :=
  [sign .plus, sign .minus, sign .star, sign .slash, sign .amp, sign .pipe, sign .lt, sign .gt, sign .eq]

def constantWords : List Label := [word .true, word .false, word .null, word .this]

def unaryOperators : List Label := [sign .minus, sign .tilde]

inductive Parameter : List Label → Prop where
  | parameter {type : Label} (named : type ∈ typeNames) : Parameter [type, name]

inductive Statement : List Label → Prop where
  | letStatement : Statement [.rule .letStatement]
  | ifStatement : Statement [.rule .ifStatement]
  | whileStatement : Statement [.rule .whileStatement]
  | doStatement : Statement [.rule .doStatement]
  | returnStatement : Statement [.rule .returnStatement]

inductive Operand : List Label → Prop where
  | operand {operator : Label} (binary : operator ∈ binaryOperators) : Operand [operator, .rule .term]

/-- What follows the leading identifier of a call. -/
inductive SubroutineCall : List Label → Prop where
  | direct : SubroutineCall [sign .lParen, .rule .expressionList, sign .rParen]
  | qualified :
      SubroutineCall [sign .dot, name, sign .lParen, .rule .expressionList, sign .rParen]

/-! ## Productions -/

inductive Production : Rule → List Label → Prop where
  | classBody {declarations subroutines : List Label}
      (declared : Repeated (· = [.rule .classVarDec]) declarations)
      (defined : Repeated (· = [.rule .subroutineDec]) subroutines) :
      Production .class
        ([word .class, name, sign .lBrace] ++ declarations ++ subroutines ++ [sign .rBrace])
  | classVarDec {scope type : Label} {names : List Label} (belongs : scope ∈ variableScopes)
      (typed : type ∈ typeNames) (listed : Listed (· = [name]) names) :
      Production .classVarDec ([scope, type] ++ names ++ [sign .semicolon])
  | subroutineDec {flavor result : Label} (flavored : flavor ∈ subroutineFlavors)
      (typed : result ∈ resultTypes) :
      Production .subroutineDec
        [flavor, result, name, sign .lParen, .rule .parameterList, sign .rParen, .rule .subroutineBody]
  | noParameters : Production .parameterList []
  | parameters {labels : List Label} (listed : Listed Parameter labels) :
      Production .parameterList labels
  | subroutineBody {declarations : List Label} (declared : Repeated (· = [.rule .varDec]) declarations) :
      Production .subroutineBody
        ([sign .lBrace] ++ declarations ++ [.rule .statements, sign .rBrace])
  | varDec {type : Label} {names : List Label} (typed : type ∈ typeNames)
      (listed : Listed (· = [name]) names) :
      Production .varDec ([word .var, type] ++ names ++ [sign .semicolon])
  | statements {labels : List Label} (repeated : Repeated Statement labels) :
      Production .statements labels
  | letVariable :
      Production .letStatement [word .let, name, sign .eq, .rule .expression, sign .semicolon]
  | letElement :
      Production .letStatement
        [word .let, name, sign .lBracket, .rule .expression, sign .rBracket, sign .eq,
          .rule .expression, sign .semicolon]
  | ifThen :
      Production .ifStatement
        [word .if, sign .lParen, .rule .expression, sign .rParen,
          sign .lBrace, .rule .statements, sign .rBrace]
  | ifThenElse :
      Production .ifStatement
        [word .if, sign .lParen, .rule .expression, sign .rParen,
          sign .lBrace, .rule .statements, sign .rBrace,
          word .else, sign .lBrace, .rule .statements, sign .rBrace]
  | whileLoop :
      Production .whileStatement
        [word .while, sign .lParen, .rule .expression, sign .rParen,
          sign .lBrace, .rule .statements, sign .rBrace]
  | doCall {call : List Label} (made : SubroutineCall call) :
      Production .doStatement ([word .do, name] ++ call ++ [sign .semicolon])
  | returnNothing : Production .returnStatement [word .return, sign .semicolon]
  | returnValue :
      Production .returnStatement [word .return, .rule .expression, sign .semicolon]
  | expression {operands : List Label} (repeated : Repeated Operand operands) :
      Production .expression ([.rule .term] ++ operands)
  | integer : Production .term [.token .intConst]
  | string : Production .term [.token .strConst]
  | keyword {label : Label} (constant : label ∈ constantWords) : Production .term [label]
  | variableName : Production .term [name]
  | element :
      Production .term [name, sign .lBracket, .rule .expression, sign .rBracket]
  | call {call : List Label} (made : SubroutineCall call) : Production .term ([name] ++ call)
  | parentheses : Production .term [sign .lParen, .rule .expression, sign .rParen]
  | unary {operator : Label} (leads : operator ∈ unaryOperators) :
      Production .term [operator, .rule .term]
  | noExpressions : Production .expressionList []
  | expressions {labels : List Label} (listed : Listed (· = [.rule .expression]) labels) :
      Production .expressionList labels

end Grammar

/-! ## Trees -/

/-- Every branch of the tree carries a right-hand side of its rule. -/
inductive Node.Derived : Node → Prop where
  | leaf (token : Token) : Derived (.leaf token)
  | branch {rule : Rule} {children : List Node}
      (production : Grammar.Production rule (children.map Node.label))
      (below : ∀ child ∈ children, child.Derived) : Derived (.branch rule children)

/-- The tree is a derivation tree of the rule. -/
def Rule.Derives (rule : Rule) (tree : Node) : Prop := tree.label = .rule rule ∧ tree.Derived

/-- The tokens are those of a derivation tree of the rule. -/
def Rule.Yields (rule : Rule) (tokens : List Token) : Prop :=
  ∃ tree, rule.Derives tree ∧ tree.tokens = tokens

end Jack
