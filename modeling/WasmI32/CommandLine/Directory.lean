/-!
# Files by path

A command line names its module by a path. `Directory.read` follows a path in a working directory
that holds some files and nothing else, one component after the other: the first component that
leads nowhere decides the error. Of the directories outside nothing is known but that they are
there, so that no file is found in them.
-/

namespace WasmI32.CommandLine

/-- Why a file cannot be read. -/
inductive FileError where
  | notFound
  /-- The path goes on behind a file. -/
  | notDirectory
  | isDirectory
  | nameTooLong
  | other (text : String)
  deriving DecidableEq, Repr

def FileError.message : FileError → String
  | notFound => "No such file or directory (os error 2)"
  | notDirectory => "Not a directory (os error 20)"
  | isDirectory => "Is a directory (os error 21)"
  | nameTooLong => "File name too long (os error 36)"
  | other text => text

/-- A working directory. -/
structure Directory where
  /-- The names and contents of the files. -/
  files : List (String × List UInt8)
  deriving DecidableEq, Repr

namespace Directory

/-- The longest component of a path, in bytes. -/
def maxName : Nat := 255

/-- The longest path, in bytes. -/
def maxPath : Nat := 4095

/-- What a path leads to. -/
inductive Place where
  /-- The working directory itself. -/
  | inside
  /-- A directory outside. -/
  | outside
  | file (contents : List UInt8)
  deriving DecidableEq, Repr

/-- The place that a name leads to from the working directory or from a directory outside. -/
def lookup (d : Directory) (place : Place) (name : String) : Except FileError Place :=
  if maxName < name.utf8ByteSize then .error .nameTooLong
  else
    match place, d.files.lookup name with
    | .inside, some contents => .ok (.file contents)
    | _, _ => .error .notFound

/-- The place that a component of a path leads to. An empty one stands for the directory it is
reached in, and no component leads on from a file. -/
def enter (d : Directory) (place : Place) (component : String) : Except FileError Place :=
  match place, component with
  | .file _, _ => .error .notDirectory
  | place, "" => .ok place
  | place, "." => .ok place
  | _, ".." => .ok .outside
  | place, name => d.lookup place name

/-- The place that a path leads to. A path that starts with a slash starts outside. -/
def find (d : Directory) (path : String) : Except FileError Place :=
  if path.isEmpty then .error .notFound
  else if maxPath < path.utf8ByteSize then .error .nameTooLong
  else
    match path.splitOn "/" with
    | "" :: components => components.foldlM d.enter .outside
    | components => components.foldlM d.enter .inside

/-- The contents of the file that a path leads to. -/
def read (d : Directory) (path : String) : Except FileError (List UInt8) :=
  match d.find path with
  | .ok (.file contents) => .ok contents
  | .ok _ => .error .isDirectory
  | .error e => .error e

end Directory

end WasmI32.CommandLine
