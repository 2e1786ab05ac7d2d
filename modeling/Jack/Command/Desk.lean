import Jack.AssocList
import Jack.Command.Path
import Jack.Command.Workspace

/-!
# Desks

A workspace that is a value: a map from places to files and directories, the text printed so far, and the
notices given so far. Runs on it are pure.
-/

namespace Jack

inductive Entry where
  | file (bytes : ByteArray)
  | directory
deriving Inhabited

/-- Files and directories, each under the parts of its place from the root on, and the place of the working
directory. There are no links. -/
structure FileMap where
  entries : List (List String × Entry) := []
  home : List String := ["tmp", "desk"]
deriving Inhabited

-- So that a map can be built up from nothing as a list is.
instance {α : Type} : CoeDep (List α) [] FileMap := ⟨{}⟩

namespace FileMap

/-- What there is at a place. The working directory and the directories around it are always there. -/
def lookup (files : FileMap) (place : List String) : Option Entry :=
  if place <+: files.home then some .directory else files.entries.lookup place

/-- Goes on from a place along the parts of a path. Only from a directory does any part lead further, even one
that leads nowhere, and from the root the way up leads nowhere else. -/
def follow (files : FileMap) (place : List String) : List String → Except FileError (List String)
  | [] => .ok place
  | part :: rest =>
    match files.lookup place with
    | some .directory =>
      if Path.isSilent part then files.follow place rest
      else if part = ".." then files.follow place.dropLast rest
      else if (files.lookup (place ++ [part])).isSome then files.follow (place ++ [part]) rest
      else .error .notFound
    | _ => .error .notDirectory

/-- Where a path starts: at the root, or in the working directory. -/
def start (files : FileMap) (path : String) : List String := if Path.isAbsolute path then [] else files.home

def locate (files : FileMap) (path : String) : Except FileError (List String) :=
  files.follow (files.start path) (Path.parts path)

/-- The place of the directory that a file is in, or would be in. -/
def locateDirectory (files : FileMap) (path : String) : Except FileError (List String) :=
  files.follow (files.start path) (Path.parts path).dropLast

def kindOf (files : FileMap) (path : String) : PathKind :=
  match files.locate path with
  | .error _ => .missing
  | .ok place =>
    match files.lookup place with
    | none => .missing
    | some (.file _) => .file
    | some .directory => .directory

/-- The names in the directory at a place. The way to the working directory is there without an entry. -/
def namesIn (files : FileMap) (directory : List String) : List String :=
  let names := files.entries.filterMap fun (place, _) =>
    if place.dropLast = directory then place.getLast? else none
  let homeward? := if directory <+: files.home then files.home[directory.length]? else none
  names ++ homeward?.toList.filter (!names.contains ·)

def list (files : FileMap) (path : String) : Except FileError (List String) :=
  (files.locate path).map files.namesIn

def read (files : FileMap) (path : String) : Except FileError ByteArray := do
  match files.lookup (← files.locate path) with
  | some (.file bytes) => .ok bytes
  | some .directory => .error .isDirectory
  | none => .error .notFound

def put (files : FileMap) (place : List String) (entry : Entry) : FileMap :=
  { files with entries := AssocList.put files.entries place entry }

/-- The map with a file written: its directory must exist, and it must not be a directory itself. -/
def write (files : FileMap) (path : String) (bytes : ByteArray) : Except FileError FileMap := do
  let directory ← files.locateDirectory path
  match files.lookup directory with
  | some .directory =>
    let target := directory ++ [Path.fileName path]
    match files.lookup target with
    | some .directory => .error .isDirectory
    | _ => return files.put target (.file bytes)
  | _ => .error .notDirectory

/-- Adds an entry in the working directory together with the directories it lies in. -/
def add (files : FileMap) (path : String) (entry : Entry) : FileMap :=
  let parts := Path.parts path
  let directories := (List.range parts.length).drop 1 |>.map fun length => files.home ++ parts.take length
  let withDirectory (files : FileMap) (directory : List String) :=
    if (files.lookup directory).isSome then files else files.put directory .directory
  (directories.foldl withDirectory files).put (files.home ++ parts) entry

/-- A path for a place, from the working directory if the place is in it. -/
def pathOf (files : FileMap) (place : List String) : String :=
  if files.home <+: place then Path.ofParts (place.drop files.home.length) else Path.ofParts ("" :: place)

def changes (before after : FileMap) : List (String × ByteArray) :=
  after.entries.filterMap fun (place, entry) =>
    match entry, before.lookup place with
    | .file bytes, some (.file old) =>
      if old.data == bytes.data then none else some (before.pathOf place, bytes)
    | .file bytes, _ => some (before.pathOf place, bytes)
    | .directory, _ => none

end FileMap

/-- The files and directories, and what a run has printed and reported. -/
structure Desk where
  files : FileMap
  printed : String := ""
  notices : List Notice := []
deriving Inhabited

namespace Desk

instance : Workspace (StateM Desk) where
  kindOf path := do return (← get).files.kindOf path
  list directory := do return (← get).files.list directory
  read path := do return (← get).files.read path
  write path text := do
    let desk ← get
    match desk.files.write path text.toUTF8 with
    | .error e => return .error e
    | .ok files =>
      set { desk with files := files }
      return .ok ()
  print text := modify fun desk => { desk with printed := desk.printed ++ text }
  tell notice := modify fun desk => { desk with notices := desk.notices ++ [notice] }

def reported (desk : Desk) : String := Markup.lines .lf (desk.notices.map Notice.text)

end Desk

end Jack
