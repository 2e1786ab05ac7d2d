/-!
# Paths

Paths are texts with slashes between their parts. The name of an output file is made from the name of its
source, in the same directory. Names that are no text are left out, and with them the replacement of what is no
text in the name of an output.
-/

namespace Jack.Path

/-- The stretches of a text between the places where a character stands. -/
def splitAt (mark : Char) : List Char → List (List Char)
  | [] => [[]]
  | c :: rest =>
    if c = mark then [] :: splitAt mark rest
    else match splitAt mark rest with
      | [] => [[c]]
      | part :: parts => (c :: part) :: parts

/-- The parts of a path; a part may be empty. -/
def parts (path : String) : List String := (splitAt '/' path.toList).map String.ofList

def ofParts (parts : List String) : String := String.intercalate "/" parts

def isSilent (part : String) : Bool := part == "" || part == "."

/-- The path begins with a slash, so that its first part is empty and not its only one. -/
def isAbsolute (path : String) : Bool := (parts path).dropLast.head? == some ""

/-- The parts of the directory of a file, when the parts of the file's path without its name are given:
parts at the end that lead nowhere are left out, but never the first one. -/
def directoryParts : List String → List String
  | [] => []
  | first :: rest => first :: (rest.reverse.dropWhile isSilent).reverse

/-- The path of another file in the directory of a file. -/
def sibling (path name : String) : String := ofParts (directoryParts (parts path).dropLast ++ [name])

def fileName (path : String) : String := (parts path).getLastD ""

def entry (directory name : String) : String :=
  if directory.toList.getLast? = some '/' then String.join [directory, name]
  else String.join [directory, "/", name]

/-- A file name before and after its last dot. A name without a dot, or with none but in front, has no
extension. -/
def splitExtension (name : String) : String × Option String :=
  let after := (name.toList.reverse.takeWhile (· != '.')).reverse
  let before := name.toList.take (name.toList.length - after.length)
  if before.length ≤ 1 then (name, none) else (String.ofList before.dropLast, some (String.ofList after))

def stem (name : String) : String := (splitExtension name).1

def extension? (name : String) : Option String := (splitExtension name).2

end Jack.Path
