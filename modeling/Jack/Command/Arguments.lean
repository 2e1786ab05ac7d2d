import Jack.Settings.Basic
import Jack.Text.Numeral

/-!
# Arguments of the program

The arguments are read from left to right, and the first problem ends the reading. Options before the
name of the task belong to the program, those after it to the task; a few are understood in both places,
and then the later one counts.
-/

namespace Jack

inductive Task where
  | parse
  | tokens
deriving DecidableEq, Repr, Inhabited

structure Command where
  task : Task
  paths : List String
  settingsPath? : Option String := none
  verbosity : Nat := 0
  toStdout : Bool := false
  lf : Bool := false
  format? : Option OutputFormat := none
  maxDepth? : Option Nat := none
  longReports : Bool := false
deriving DecidableEq, Repr, Inhabited

/-- The settings of a run: what the arguments say wins over the settings file. -/
def Command.override (command : Command) (settings : Settings) : Settings where
  lineEnding := if command.lf then .lf else settings.lineEnding
  maxDepth := command.maxDepth?.getD settings.maxDepth
  format := command.format?.getD settings.format

/-! ## Options -/

inductive Switch where
  | config | verbose | version | help | stdout | lf | pretty | format | maxDepth
deriving DecidableEq, Repr, Inhabited

namespace Switch

/-- The name of an option after two dashes. -/
def name : Switch → String
  | .config => "config"
  | .verbose => "verbose"
  | .version => "version"
  | .help => "help"
  | .stdout => "stdout"
  | .lf => "lf"
  | .pretty => "pretty"
  | .format => "format"
  | .maxDepth => "max-depth"

def letter? : Switch → Option Char
  | .verbose => some 'v'
  | .version => some 'V'
  | .help => some 'h'
  | _ => none

def takesValue : Switch → Bool
  | .config | .format | .maxDepth => true
  | _ => false

end Switch

inductive Place where
  | program
  | task (task : Task)
  /-- After the word that asks for help; one word more may name what the help is about. -/
  | help (named : Bool)
deriving DecidableEq, Repr, Inhabited

/-- The options that are understood in a place. -/
def Place.options : Place → List Switch
  | .program => [.config, .verbose, .version, .help]
  | .task .parse => [.config, .verbose, .help, .stdout, .format, .lf, .maxDepth, .pretty]
  | .task .tokens => [.config, .verbose, .help, .stdout, .lf]
  | .help _ => []

inductive Usage where
  | version
  | help
  | unknownOption (argument : String)
  | missingValue (switch : Switch)
  | unexpectedValue (switch : Switch)
  | invalidValue (switch : Switch) (value : String)
  | repeatedOption (switch : Switch)
  | unknownTask (argument : String)
  | missingTask
  | emptyPath
  | missingPath
deriving DecidableEq, Repr, Inhabited

namespace Usage

/-- The problem with the arguments. Asking for help or the version is none. -/
def problem? : Usage → Option String
  | .version | .help => none
  | .unknownOption argument => some (String.join ["unexpected argument '", argument, "'"])
  | .missingValue switch => some (String.join ["a value is required for '--", switch.name, "'"])
  | .unexpectedValue switch => some (String.join ["no value is allowed for '--", switch.name, "'"])
  | .invalidValue switch value => some (String.join ["invalid value '", value, "' for '--", switch.name, "'"])
  | .repeatedOption switch => some (String.join ["the argument '--", switch.name, "' cannot be used twice"])
  | .unknownTask argument => some (String.join ["unrecognized subcommand '", argument, "'"])
  | .missingTask => some "a subcommand is required"
  | .emptyPath => some "a path must not be empty"
  | .missingPath => some "at least one path is required"

end Usage

/-! ## Reading arguments -/

structure Draft where
  place : Place := .program
  given : List Switch := []
  /-- The option whose value is the next argument. -/
  awaiting? : Option Switch := none
  /-- Whether all further arguments are paths. -/
  pathsOnly : Bool := false
  command : Command := { task := .parse, paths := [] }
deriving DecidableEq, Repr, Inhabited

namespace Draft

/-- The option that a test singles out among those understood here. -/
def find (draft : Draft) (argument : String) (test : Switch → Bool) : Except Usage Switch :=
  match draft.place.options.find? test with
  | some switch => .ok switch
  | none => .error (.unknownOption argument)

def mark (draft : Draft) (switch : Switch) : Draft := { draft with given := switch :: draft.given }

/-- A flag: an option without a value. Only the one that asks for more notices may be repeated; when it is
given in both places, the count starts anew. -/
def flag (draft : Draft) (switch : Switch) : Except Usage Draft :=
  let marked := draft.mark switch
  let command := draft.command
  if switch = .verbose then
    let count := if draft.given.contains .verbose then command.verbosity + 1 else 1
    .ok { marked with command := { command with verbosity := count } }
  else if draft.given.contains switch then .error (.repeatedOption switch)
  else match switch with
    | .version => .error .version
    | .help => .error .help
    | .stdout => .ok { marked with command := { command with toStdout := true } }
    | .lf => .ok { marked with command := { command with lf := true } }
    | .pretty => .ok { marked with command := { command with longReports := true } }
    | _ => .error (.missingValue switch)

/-- A nesting limit: a positive number of 32 bits. It is read with 63 bits first; with a minus sign in front it
would be out of range. -/
def limit? (value : String) : Option Nat :=
  (Numeral.unsigned? 0x8000000000000000 value.toList).filter fun limit => 1 ≤ limit ∧ limit ≤ 0xffffffff

def give (draft : Draft) (switch : Switch) (value : String) : Except Usage Draft :=
  let marked := draft.mark switch
  let command := draft.command
  if draft.given.contains switch then .error (.repeatedOption switch)
  else match switch with
    | .config =>
      if value = "" then .error (.invalidValue switch value)
      else .ok { marked with command := { command with settingsPath? := some value } }
    | .format =>
      match value with
      | "xml" => .ok { marked with command := { command with format? := some .xml } }
      | "json" => .ok { marked with command := { command with format? := some .json } }
      | _ => .error (.invalidValue switch value)
    | .maxDepth =>
      match limit? value with
      | some limit => .ok { marked with command := { command with maxDepth? := some limit } }
      | none => .error (.invalidValue switch value)
    | _ => .error (.unexpectedValue switch)

def path (draft : Draft) (path : String) : Except Usage Draft :=
  if path = "" then .error .emptyPath
  else .ok { draft with command := { draft.command with paths := draft.command.paths ++ [path] } }

def enter (draft : Draft) (task : Task) : Draft :=
  { draft with place := .task task, given := [], command := { draft.command with task := task } }

def word (draft : Draft) (word : String) : Except Usage Draft :=
  match draft.place, word with
  | .task _, word => draft.path word
  | .program, "parse" => .ok (draft.enter .parse)
  | .program, "tokens" => .ok (draft.enter .tokens)
  | .program, "help" => .ok { draft with place := .help false }
  | .help false, "parse" | .help false, "tokens" | .help false, "help" =>
    .ok { draft with place := .help true }
  | _, word => .error (.unknownTask word)

/-- Two dashes alone: all further arguments are paths. -/
def endOptions (draft : Draft) : Except Usage Draft :=
  match draft.place with
  | .task _ => .ok { draft with pathsOnly := true }
  | _ => .error .missingTask

/-- An argument that begins with a dash cannot be a value, unless it is the dash alone. -/
def isValue (argument : String) : Bool :=
  match argument.toList with
  | ['-'] => true
  | '-' :: _ => false
  | _ => true

/-- The name and, after an equals sign, the value of an argument that begins with two dashes. -/
def splitValue (text : List Char) : String × Option String :=
  let name := String.ofList (text.takeWhile (· != '='))
  match text.dropWhile (· != '=') with
  | _ :: value => (name, some (String.ofList value))
  | [] => (name, none)

/-- An argument that begins with two dashes, which are left out of `text`. -/
def long (draft : Draft) (argument : String) (text : List Char) : Except Usage Draft := do
  let (name, value?) := splitValue text
  let switch ← draft.find argument (·.name == name)
  match switch.takesValue, value? with
  | false, none => draft.flag switch
  | false, some _ => .error (.unexpectedValue switch)
  | true, some value => draft.give switch value
  | true, none => .ok { draft with awaiting? := some switch }

/-- An argument that begins with one dash: each letter after it is a flag. -/
def short (draft : Draft) (argument : String) (letters : List Char) : Except Usage Draft :=
  letters.foldlM (fun draft letter => do
    draft.flag (← draft.find argument (·.letter? == some letter))) draft

def step (draft : Draft) (argument : String) : Except Usage Draft :=
  if draft.pathsOnly then draft.path argument
  else match draft.awaiting? with
    | some switch =>
      if isValue argument then { draft with awaiting? := none }.give switch argument
      else .error (.missingValue switch)
    | none =>
      match argument.toList with
      | ['-', '-'] => draft.endOptions
      | '-' :: '-' :: text => draft.long argument text
      | '-' :: letter :: letters => draft.short argument (letter :: letters)
      | _ => draft.word argument

def finish (draft : Draft) : Except Usage Command :=
  match draft.awaiting?, draft.place with
  | some switch, _ => .error (.missingValue switch)
  | none, .program => .error .missingTask
  | none, .help _ => .error .help
  | none, .task _ => if draft.command.paths = [] then .error .missingPath else .ok draft.command

end Draft

def Command.ofArguments (arguments : List String) : Except Usage Command := do
  (← arguments.foldlM Draft.step {}).finish

end Jack
