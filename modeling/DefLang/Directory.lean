namespace DefLang

/-- Why a source cannot be read, with the number of the error if it comes from the system. -/
structure ReadError where
  description : String
  code : Option Nat
  deriving DecidableEq, Repr

namespace ReadError

def notFound : ReadError := { description := "No such file or directory", code := some 2 }

def notADirectory : ReadError := { description := "Not a directory", code := some 20 }

def isADirectory : ReadError := { description := "Is a directory", code := some 21 }

def nameTooLong : ReadError := { description := "File name too long", code := some 36 }

def notText : ReadError := { description := "stream did not contain valid UTF-8", code := none }

def message (e : ReadError) : String :=
  match e.code with
  | some code => e.description ++ " (os error " ++ toString code ++ ")"
  | none => e.description

end ReadError

/-- A working directory that holds some files, by their relative paths, and the folders these
need. Of two files with one path the later stays. -/
structure Directory where
  files : List (String × ByteArray)

namespace Directory

/-- The longest name and the longest path, in bytes. -/
def maxNameSize : Nat := 255

def maxPathSize : Nat := 4095

/-- A point on the way along a path. Nothing is known about what lies outside the working
directory, except that `.` and `..` stay there. -/
inductive Place where
  | file (contents : ByteArray)
  | folder (names : List String)
  | outside

def components (path : String) : List String :=
  (path.toList.splitOn '/').map String.ofList

/-- The folders of a stored file from the top down, then its own name. -/
def names (path : String) : List String :=
  (components path).filter fun name => name != "" && name != "."

def lookup? (d : Directory) (path : List String) : Option Place :=
  match d.files.reverse.find? fun file => names file.1 == path with
  | some file => some (.file file.2)
  | none =>
    if d.files.any fun file => path.isPrefixOf (names file.1) then some (.folder path) else none

/-- Follows one component of a path. -/
def follow (d : Directory) : Place → String → Except ReadError Place
  | .file _, _ => .error .notADirectory
  | .folder path, name =>
    if name = "" ∨ name = "." then .ok (.folder path)
    else if name = ".." then .ok (if path = [] then .outside else .folder path.dropLast)
    else if maxNameSize < name.utf8ByteSize then .error .nameTooLong
    else
      match d.lookup? (path ++ [name]) with
      | some place => .ok place
      | none => .error .notFound
  | .outside, name =>
    if name = "" ∨ name = "." ∨ name = ".." then .ok .outside
    else if maxNameSize < name.utf8ByteSize then .error .nameTooLong
    else .error .notFound

/-- The contents of the file at `path`. -/
def read (d : Directory) (path : String) : Except ReadError ByteArray :=
  if path = "" then .error .notFound
  else if maxPathSize < path.utf8ByteSize then .error .nameTooLong
  else do
    let start := if path.toList.head? = some '/' then Place.outside else Place.folder []
    match ← (components path).foldlM d.follow start with
    | .file contents => return contents
    | .folder _ => throw .isADirectory
    | .outside => throw .isADirectory

end Directory

end DefLang
