import Jack.Command.Run

/-!
# The program

The workspace of the operating system, and the entry point.
-/

namespace Jack

/-- The cause of a failed action on files; 21 is the code for a directory in place of a file. -/
def FileError.ofError : IO.Error → FileError
  | .noFileOrDirectory _ _ _ => .notFound
  | .inappropriateType _ code _ =>
    if code = 21 then .isDirectory else .notDirectory
  | e => .other e.toString

/-- Runs an action on files and turns its failure into a value. -/
def attempt {α : Type} (action : IO α) : IO (Except FileError α) := do
  try return .ok (← action)
  catch e => return .error (.ofError e)

instance : Workspace IO where
  kindOf path := do
    match ← attempt (IO.FS.realPath path) with
    | .error _ => return .missing
    | .ok real =>
      if ← real.isDir then return .directory
      else if ← real.pathExists then return .file
      else return .missing
  list directory := attempt do
    return (← (← IO.FS.realPath directory).readDir).toList.map (·.fileName)
  read path := attempt (IO.FS.readBinFile path)
  write path text := attempt (IO.FS.writeFile path text)
  print text := IO.print text
  tell notice := IO.eprintln notice.text

end Jack

def main (arguments : List String) : IO UInt32 := do
  return (← Jack.runArguments arguments).toUInt32
