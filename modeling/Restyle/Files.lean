/-!
# Files

The files and directories that a program can see, as a value. Looking a path up goes part by part,
and every part but the last has to lead to a directory, also if the next one leads out of it again.
-/

namespace Restyle

inductive FileError where
  /-- No path can hold a null character. -/
  | nullInPath
  | nameTooLong
  | notFound
  /-- A file stands where the path needs a directory. -/
  | notADirectory
  | isADirectory
  /-- The bytes of the file are not UTF-8. -/
  | notText
  deriving DecidableEq, Repr

def FileError.message : FileError → String
  | nullInPath => "file name contained an unexpected NUL byte"
  | nameTooLong => "File name too long (os error 36)"
  | notFound => "No such file or directory (os error 2)"
  | notADirectory => "Not a directory (os error 20)"
  | isADirectory => "Is a directory (os error 21)"
  | notText => "stream did not contain valid UTF-8"

/-- The names that lead to a place, the innermost first. -/
abbrev Place := List String

/-- Directories and files by their places. The outermost directory is always there, and paths that
do not say where they start, start in it. -/
structure FileTree where
  directories : List Place := []
  files : List (Place × ByteArray) := []

namespace FileTree

def maxPathBytes : Nat := 4095

def maxNameBytes : Nat := 255

def isDirectory (t : FileTree) (place : Place) : Bool :=
  place.isEmpty || t.directories.contains place

def file? (t : FileTree) (place : Place) : Option ByteArray :=
  (t.files.find? (·.1 == place)).map (·.2)

/-- Goes on from a place along the parts of a path. -/
def walk (t : FileTree) : Place → List String → Except FileError Place
  | place, [] => .ok place
  | place, part :: rest =>
    if !t.isDirectory place then .error .notADirectory
    else if part = "" ∨ part = "." then walk t place rest
    else if part = ".." then walk t place.tail rest
    else if part.utf8ByteSize > maxNameBytes then .error .nameTooLong
    else if t.isDirectory (part :: place) || (t.file? (part :: place)).isSome then
      walk t (part :: place) rest
    else .error .notFound

def find (t : FileTree) (path : String) : Except FileError Place :=
  if path.toList.contains '\x00' then .error .nullInPath
  else if path = "" then .error .notFound
  else if path.utf8ByteSize > maxPathBytes then .error .nameTooLong
  else t.walk [] (path.splitOn "/")

def exists? (t : FileTree) (path : String) : Bool := (t.find path).isOk

def read (t : FileTree) (path : String) : Except FileError String := do
  match t.file? (← t.find path) with
  | none => throw .isADirectory
  | some bytes =>
    match String.fromUTF8? bytes with
    | some text => return text
    | none => throw .notText

/-- Makes the directories that the parts lead through, as far as they are not there. -/
def makeDirectories (t : FileTree) : Place → List String → FileTree × Place
  | place, [] => (t, place)
  | place, part :: rest =>
    if part = "" ∨ part = "." then t.makeDirectories place rest
    else if part = ".." then t.makeDirectories place.tail rest
    else
      let place := part :: place
      let t := if t.isDirectory place then t else { t with directories := place :: t.directories }
      t.makeDirectories place rest

/-- The tree with a file of this name in a directory, which is made if it is not there. -/
def write (t : FileTree) (directory name : String) (bytes : ByteArray) : FileTree :=
  let (t, place) := t.makeDirectories [] (directory.splitOn "/")
  { t with files := (name :: place, bytes) :: t.files }

end FileTree

end Restyle
