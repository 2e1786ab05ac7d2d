import Jack.Analysis
import Jack.Command.Arguments
import Jack.Command.Path
import Jack.Command.Workspace

/-!
# Running the program

A run reads its settings, finds its sources, and treats them one by one: a source that fails does not keep
the others from being treated.
-/

namespace Jack

/-! ## One source text -/

/-- What comes of one source text: notices on the way, and a text to write or an error to report. -/
structure Work where
  notices : List Notice
  result : Except Diagnostic String

namespace Task

def work (settings : Settings) (path source : String) : Task → Work
  | .tokens => ⟨[], (Token.scan source).map (Token.listing settings.lineEnding)⟩
  | .parse =>
    match TokenStream.ofSource source with
    | .error d => ⟨[.parsing path], .error d⟩
    | .ok stream =>
      let visit := parseClass settings.maxDepth stream
      let ending := match visit.result with
        | .ok tree => [.classParsed visit.calls.length tree.depth visit.cursor.atEnd]
        | .error _ => []
      ⟨.parsing path :: visit.journal.map .ofEvent ++ ending, visit.result.map settings.emit⟩

/-- The path of the output for the source at a path: in the same directory, named after the source. -/
def outputPath (settings : Settings) (path : String) : Task → String
  | .parse => Path.sibling path (String.join [Path.stem (Path.fileName path), ".", settings.format.extension])
  | .tokens => Path.sibling path (String.join [Path.stem (Path.fileName path), "T.xml"])

end Task

def sourceExtension : String := "jack"

namespace Command

variable {m : Type → Type} [Monad m] [Workspace m]

def say (command : Command) (notice : Notice) : m Unit :=
  if notice.isShown command.verbosity then Workspace.tell notice else pure ()

def readText (path : String) : m (Except FileError String) := do
  match ← Workspace.read path with
  | .error e => return .error e
  | .ok bytes =>
    match String.fromUTF8? bytes with
    | some text => return .ok text
    | none => return .error .invalidText

/-! ## Settings -/

def settingsFrom (path : String) : m (Except Notice Settings) := do
  match ← readText path with
  | .error e => return .error (.settingsUnreadable path e)
  | .ok document =>
    match Settings.read document with
    | .ok settings => return .ok settings
    | .error e => return .error (.settingsInvalid path e)

/-- The settings from the file that the arguments name, or else from the settings file in the working
directory if there is one. -/
def loadSettings (command : Command) : m (Except Notice Settings) := do
  match command.settingsPath? with
  | some path => settingsFrom path
  | none =>
    let path := Path.entry "." settingsFileName
    match ← Workspace.kindOf path with
    | .file => settingsFrom path
    | _ => return .ok {}

/-! ## Sources -/

/-- The source files directly in a directory, in the order of their names. -/
def sourcesIn (directory : String) : m (Except FileError (List String)) := do
  match ← Workspace.list directory with
  | .error e => return .error e
  | .ok names =>
    let candidates := names.filter fun name => Path.extension? name == some sourceExtension
    let paths := (candidates.mergeSort fun a b => !decide (b < a)).map (Path.entry directory)
    return .ok (← paths.filterM fun path => do return (← Workspace.kindOf path) == .file)

/-- The sources that some paths stand for: a directory stands for the source files in it, any other path
for itself. -/
def collectSources : List String → m (Except FileError (List String))
  | [] => return .ok []
  | path :: rest => do
    let here ← match ← Workspace.kindOf path with
      | .directory => sourcesIn path
      | _ => pure (.ok [path])
    match here with
    | .error e => return .error e
    | .ok sources => return (← collectSources rest).map (sources ++ ·)

/-- Prints an output, or writes it to its file. Tells whether this worked. -/
def deliver (command : Command) (path text : String) : m Bool := do
  if command.toStdout then
    Workspace.print text
    return true
  else
    match ← Workspace.write path text with
    | .ok () =>
      command.say (.wrote path)
      return true
    | .error e =>
      command.say (.outputUnwritable path e)
      return false

/-- Treats the source at a path. Tells whether this worked. -/
def treat (command : Command) (settings : Settings) (path : String) : m Bool := do
  match ← readText path with
  | .error e =>
    command.say (.sourceUnreadable path e)
    return false
  | .ok source =>
    let work := command.task.work settings path source
    work.notices.forM command.say
    match work.result with
    | .ok text => command.deliver (command.task.outputPath settings path) text
    | .error d =>
      command.say (.diagnosed d command.longReports)
      return false

/-! ## Whole runs -/

/-- Treats all sources. The exit code is zero if all of them worked, and one otherwise. -/
def treatAll (command : Command) (settings : Settings) (sources : List String) : m Nat := do
  let successes ← sources.mapM (command.treat settings)
  let success := successes.all id
  command.say (.done sources.length success)
  return if success then 0 else 1

def run (command : Command) : m Nat := do
  match ← command.loadSettings with
  | .error notice =>
    command.say notice
    return 1
  | .ok settings =>
    match ← collectSources command.paths with
    | .error e =>
      command.say (.directoryUnreadable e)
      return 1
    | .ok [] =>
      command.say .noSources
      return 1
    | .ok sources => command.treatAll (command.override settings) sources

end Command

def versionText : String := "jack-syntax 0.1.0\n"

def helpText : String :=
  String.join [
    "Syntax analyzer for the Jack language\n\n",
    "Usage: jack-syntax [--config FILE] [-v...] parse [--stdout] [--format xml|json] [--lf]\n",
    "                   [--max-depth N] [--pretty] PATH...\n",
    "       jack-syntax [--config FILE] [-v...] tokens [--stdout] [--lf] PATH...\n"]

/-- Runs the program with some arguments and gives its exit code: two if it cannot make sense of them. -/
def runArguments {m : Type → Type} [Monad m] [Workspace m] (arguments : List String) : m Nat := do
  match Command.ofArguments arguments with
  | .ok command => command.run
  | .error .version =>
    Workspace.print versionText
    return 0
  | .error .help =>
    Workspace.print helpText
    return 0
  | .error usage =>
    Workspace.tell (.usage (usage.problem?.getD ""))
    return 2

end Jack
