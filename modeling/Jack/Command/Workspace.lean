import Jack.Command.Notice

/-!
# Workspaces

What the program needs of its surroundings: files, a place for its output, and a place for notices.
-/

namespace Jack

inductive PathKind where
  | missing
  | file
  | directory
deriving DecidableEq, Repr, Inhabited

class Workspace (m : Type → Type) where
  kindOf (path : String) : m PathKind
  list (directory : String) : m (Except FileError (List String))
  read (path : String) : m (Except FileError ByteArray)
  write (path text : String) : m (Except FileError Unit)
  print (text : String) : m Unit
  tell (notice : Notice) : m Unit

end Jack
