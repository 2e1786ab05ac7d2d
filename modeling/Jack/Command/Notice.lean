import Jack.Parse.Outcome
import Jack.Settings.Read

/-!
# Notices

What a run of the program reports besides its output: failures always, and on request what it is doing. Times and
colours are left out, and so is the drawing of the source below the headline of a long report.
-/

namespace Jack

inductive FileError where
  | notFound
  | notDirectory
  | isDirectory
  | invalidText
  | other (text : String)
deriving DecidableEq, Repr, Inhabited

def FileError.message : FileError → String
  | .notFound => "No such file or directory (os error 2)"
  | .notDirectory => "Not a directory (os error 20)"
  | .isDirectory => "Is a directory (os error 21)"
  | .invalidText => "stream did not contain valid UTF-8"
  | .other text => text

inductive Level where
  | error
  | info
  | debug
  | trace
deriving DecidableEq, Repr, Inhabited

namespace Level

/-- How often the program has to be asked to say more before it gives a notice of this level. -/
def threshold : Level → Nat
  | .error => 0
  | .info => 1
  | .debug => 2
  | .trace => 3

end Level

inductive Notice where
  /-- The arguments of the program make no sense. -/
  | usage (problem : String)
  | settingsUnreadable (path : String) (error : FileError)
  | settingsInvalid (path : String) (error : SettingsError)
  | directoryUnreadable (error : FileError)
  | noSources
  | sourceUnreadable (path : String) (error : FileError)
  | outputUnwritable (path : String) (error : FileError)
  /-- A source has an error; the long form of the report has a headline of its own. -/
  | diagnosed (diagnostic : Diagnostic) (long : Bool)
  | wrote (path : String)
  | parsing (path : String)
  | done (sources : Nat) (success : Bool)
  | entered (rule : Rule) (line : Nat)
  | called (name : String) (arity : Nat)
  | classParsed (calls depth : Nat) (atEnd : Bool)
deriving DecidableEq, Repr, Inhabited

namespace Notice

def level : Notice → Level
  | .wrote _ => .info
  | .parsing _ | .done _ _ => .debug
  | .entered _ _ | .called _ _ | .classParsed _ _ _ => .trace
  | _ => .error

/-- Whether the notice is given when the program is asked `verbosity` times to say more. -/
def isShown (verbosity : Nat) (n : Notice) : Bool := n.level.threshold ≤ verbosity

def text : Notice → String
  | .usage problem => String.join ["error: ", problem]
  | .settingsUnreadable path error =>
    String.join ["error: failed to read ", path, ": ", error.message]
  | .settingsInvalid path error => String.join ["error: ", error.message path]
  | .directoryUnreadable error => String.join ["error: ", error.message]
  | .noSources => "error: no .jack files found"
  | .sourceUnreadable path error =>
    String.join ["error [", path, "]: failed to read source: ", error.message]
  | .outputUnwritable path error =>
    String.join ["error [", path, "]: failed to write output: ", error.message]
  | .diagnosed d long => if long then d.headline else d.report
  | .wrote path => String.join ["INFO wrote path=", path]
  | .parsing path => String.join ["DEBUG parsing file=", path]
  | .done sources success =>
    String.join ["DEBUG done files=", toString sources, " ok=", toString success]
  | .entered rule line => String.join ["TRACE enter rule=\"", rule.name, "\" line=", toString line]
  | .called name arity =>
    String.join ["TRACE subroutine call name=", name, " arg_count=", toString arity]
  | .classParsed calls depth atEnd =>
    String.join ["TRACE class parsed calls=", toString calls, " depth=", toString depth, " at_end=",
      toString atEnd]

def ofEvent : Event → Notice
  | .enter rule line => .entered rule line
  | .call call => .called call.name call.arity

end Notice

end Jack
