import Jack.Token.Basic

/-!
# Diagnostics

The first thing that is wrong with a source: either the text does not scan, or a token does not fit the
grammar. A diagnostic knows its message, its place and its one-line report.
-/

namespace Jack

inductive Violation where
  /-- None of the kinds that may stand here was found. -/
  | unexpected (expected : List Kind)
  | termExpected
  /-- One more rule would exceed the nesting limit. -/
  | tooDeep (limit : Nat)
deriving DecidableEq, Repr, Inhabited

namespace Violation

/-- A single kind is named alone; otherwise all are listed. -/
def message : Violation → String
  | .unexpected [kind] => String.join ["expected ", kind.describe]
  | .unexpected kinds => String.join ["expected one of ", String.intercalate ", " (kinds.map Kind.describe)]
  | .termExpected => "term expected"
  | .tooDeep limit => String.join ["nesting deeper than ", toString limit, " levels"]

end Violation

inductive Diagnostic where
  | grammar (violation : Violation) (found : Token)
  /-- The text `lexeme` is no token. -/
  | scan (message lexeme : String) (span : Span)
deriving DecidableEq, Repr, Inhabited

namespace Diagnostic

def message : Diagnostic → String
  | .grammar violation _ => violation.message
  | .scan message _ _ => message

def span : Diagnostic → Span
  | .grammar _ found => found.span
  | .scan _ _ span => span

def line (d : Diagnostic) : Nat := d.span.line

/-- Where the error is, for the report: at the end of input, or at a quoted piece of the source. -/
def location : Diagnostic → String
  | .grammar _ found => if found.isEof then " at end" else String.join [" at '", found.lexeme, "'"]
  | .scan _ lexeme _ => String.join [" at '", lexeme, "'"]

/-- The report of an error, such as `[line 4] Error at 'y': expected ';'`. -/
def report (d : Diagnostic) : String :=
  String.join ["[line ", toString d.line, "] Error", d.location, ": ", d.message]

def headline (d : Diagnostic) : String := String.join ["Error: syntax error on line ", toString d.line]

end Diagnostic

end Jack
