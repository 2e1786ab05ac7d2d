/-!
# Kinds of token

Keywords and symbols have a fixed spelling; the other kinds stand for a class of spellings. The scanner has a
table of the spellings of its own, which agrees with the one for listings and messages.
-/

namespace Jack

inductive Keyword where
  | «class» | constructor | function | method | field | static | var
  | int | char | boolean | void
  | «true» | «false» | null | this
  | «let» | «do» | «if» | «else» | «while» | «return»
deriving DecidableEq, Repr, Inhabited

namespace Keyword

def all : List Keyword :=
  [.class, .constructor, .function, .method, .field, .static, .var, .int, .char, .boolean, .void,
    .true, .false, .null, .this, .let, .do, .if, .else, .while, .return]

/-- What the scanner takes for the keyword. -/
def pattern : Keyword → String
  | .class => "class"
  | .constructor => "constructor"
  | .function => "function"
  | .method => "method"
  | .field => "field"
  | .static => "static"
  | .var => "var"
  | .int => "int"
  | .char => "char"
  | .boolean => "boolean"
  | .void => "void"
  | .true => "true"
  | .false => "false"
  | .null => "null"
  | .this => "this"
  | .let => "let"
  | .do => "do"
  | .if => "if"
  | .else => "else"
  | .while => "while"
  | .return => "return"

/-- How listings and messages spell the keyword. -/
def text : Keyword → String
  | .class => "class"
  | .constructor => "constructor"
  | .function => "function"
  | .method => "method"
  | .field => "field"
  | .static => "static"
  | .var => "var"
  | .int => "int"
  | .char => "char"
  | .boolean => "boolean"
  | .void => "void"
  | .true => "true"
  | .false => "false"
  | .null => "null"
  | .this => "this"
  | .let => "let"
  | .do => "do"
  | .if => "if"
  | .else => "else"
  | .while => "while"
  | .return => "return"

def ofText? (word : String) : Option Keyword := all.find? (·.pattern == word)

theorem mem_all (k : Keyword) : k ∈ all := by cases k <;> decide

/-- The two tables agree. -/
theorem pattern_eq_text (k : Keyword) : k.pattern = k.text := by cases k <;> rfl

end Keyword

inductive Symbol where
  | lBrace | rBrace | lParen | rParen | lBracket | rBracket
  | dot | comma | semicolon
  | plus | minus | star | slash | amp | pipe | lt | gt | eq | tilde
deriving DecidableEq, Repr, Inhabited

namespace Symbol

def all : List Symbol :=
  [.lBrace, .rBrace, .lParen, .rParen, .lBracket, .rBracket, .dot, .comma, .semicolon, .plus, .minus,
    .star, .slash, .amp, .pipe, .lt, .gt, .eq, .tilde]

/-- What the scanner takes for the symbol. -/
def char : Symbol → Char
  | .lBrace => '{'
  | .rBrace => '}'
  | .lParen => '('
  | .rParen => ')'
  | .lBracket => '['
  | .rBracket => ']'
  | .dot => '.'
  | .comma => ','
  | .semicolon => ';'
  | .plus => '+'
  | .minus => '-'
  | .star => '*'
  | .slash => '/'
  | .amp => '&'
  | .pipe => '|'
  | .lt => '<'
  | .gt => '>'
  | .eq => '='
  | .tilde => '~'

/-- How listings and messages spell the symbol. -/
def text : Symbol → String
  | .lBrace => "\x7b"
  | .rBrace => "\x7d"
  | .lParen => "("
  | .rParen => ")"
  | .lBracket => "["
  | .rBracket => "]"
  | .dot => "."
  | .comma => ","
  | .semicolon => ";"
  | .plus => "+"
  | .minus => "-"
  | .star => "*"
  | .slash => "/"
  | .amp => "&"
  | .pipe => "|"
  | .lt => "<"
  | .gt => ">"
  | .eq => "="
  | .tilde => "~"

def ofChar? (c : Char) : Option Symbol := all.find? (·.char == c)

def name : Symbol → String
  | .lBrace => "LBrace"
  | .rBrace => "RBrace"
  | .lParen => "LParen"
  | .rParen => "RParen"
  | .lBracket => "LBracket"
  | .rBracket => "RBracket"
  | .dot => "Dot"
  | .comma => "Comma"
  | .semicolon => "Semicolon"
  | .plus => "Plus"
  | .minus => "Minus"
  | .star => "Star"
  | .slash => "Slash"
  | .amp => "Amp"
  | .pipe => "Pipe"
  | .lt => "Lt"
  | .gt => "Gt"
  | .eq => "Eq"
  | .tilde => "Tilde"

theorem mem_all (s : Symbol) : s ∈ all := by cases s <;> decide

/-- The two tables agree. -/
@[simp] theorem text_eq (s : Symbol) : s.text = s.char.toString := by cases s <;> decide

end Symbol

/-- The kind of a token. `eof` marks the end of input and is never scanned from text. -/
inductive Kind where
  | keyword (word : Keyword)
  | symbol (sign : Symbol)
  | intConst
  | strConst
  | ident
  | eof
deriving DecidableEq, Repr, Inhabited

namespace Kind

def all : List Kind :=
  Keyword.all.map .keyword ++ Symbol.all.map .symbol ++ [.intConst, .strConst, .ident, .eof]

/-- The operators that may stand between two terms of an expression. -/
def binaryOps : List Kind :=
  [.symbol .plus, .symbol .minus, .symbol .star, .symbol .slash, .symbol .amp, .symbol .pipe,
    .symbol .lt, .symbol .gt, .symbol .eq]

def isKeyword : Kind → Bool
  | .keyword _ => true
  | _ => false

def isSymbol : Kind → Bool
  | .symbol _ => true
  | _ => false

def isBinaryOp (k : Kind) : Bool := binaryOps.contains k

def fixedText? : Kind → Option String
  | .keyword word => some word.text
  | .symbol sign => some sign.text
  | _ => none

def category : Kind → String
  | .keyword _ => "keyword"
  | .symbol _ => "symbol"
  | .intConst => "integerConstant"
  | .strConst => "stringConstant"
  | .ident => "identifier"
  | .eof => "eof"

def describe : Kind → String
  | .keyword word => String.join ["'", word.text, "'"]
  | .symbol sign => String.join ["'", sign.text, "'"]
  | .intConst => "integer constant"
  | .strConst => "string constant"
  | .ident => "identifier"
  | .eof => "end of input"

def name : Kind → String
  | .keyword word => word.text.capitalize
  | .symbol sign => sign.name
  | .intConst => "IntConst"
  | .strConst => "StrConst"
  | .ident => "Ident"
  | .eof => "Eof"

def ofName? (name : String) : Option Kind := all.find? (·.name == name)

theorem mem_all (k : Kind) : k ∈ all := by
  cases k with
  | keyword word => simp [all, Keyword.mem_all]
  | symbol sign => simp [all, Symbol.mem_all]
  | intConst | strConst | ident | eof => simp [all]

end Kind

end Jack
