/-!
# Files

The files that the command sees: those in its working directory, and what can be told of the
directories around it. A path is followed name by name, and everything but its last name must be a
directory.
-/

namespace TensorKernel.CommandLine

/-- Why a path does not lead to a file. -/
inductive PathFault where
  /-- The path has a character that no name can have. -/
  | invalid
  /-- The path, or a name in it, is too long. -/
  | tooLong
  | missing
  | notDirectory
  | isDirectory
deriving DecidableEq, Repr

/-- The wording for a path that does not lead to a file. -/
def PathFault.message : PathFault → String
  | invalid => "invalid argument"
  | tooLong => "file name too long"
  | missing => "no such file or directory"
  | notDirectory => "not a directory"
  | isDirectory => "is a directory"

/-- Why a file could not be read or written. -/
inductive FileError where
  /-- It could not be opened. -/
  | opening (path : String) (cause : PathFault)
  /-- It could be opened, but not read. -/
  | reading (path : String) (cause : PathFault)
  /-- Anything else, in the words of the system. -/
  | other (text : String)
deriving DecidableEq, Repr

/-- The wording for a file that could not be read or written. -/
def FileError.message : FileError → String
  | opening path cause => "open " ++ path ++ ": " ++ cause.message
  | reading path cause => "read " ++ path ++ ": " ++ cause.message
  | other text => text

/-- A path, taken apart. -/
structure Path where
  /-- Whether the path starts at the top directory. -/
  absolute : Bool
  /-- The names before the last one. -/
  parents : List String
  /-- The last name; none if there are no names at all. -/
  last : Option String
  /-- Whether a slash follows the last name. -/
  closed : Bool
deriving DecidableEq, Repr

namespace Path

/-- The greatest size of a path in bytes. -/
def maxSize : Nat := 4095

/-- The greatest size of a name in bytes. -/
def maxNameSize : Nat := 255

/-- Take a path apart. -/
def ofText (text : String) : Path :=
  let names := (text.splitOn "/").filter (· ≠ "")
  { absolute := text.startsWith "/", parents := names.dropLast, last := names.getLast?
    closed := text.endsWith "/" }

/-- Take a path apart, unless it is none. -/
def parse (text : String) : Except PathFault Path :=
  if text.contains '\x00' then .error .invalid
  else if text = "" then .error .missing
  else if maxSize < text.utf8ByteSize then .error .tooLong
  else .ok (ofText text)

end Path

/-- A directory, as far as it is known. -/
inductive Directory where
  /-- The directory with the files. -/
  | working
  /-- A directory above the working directory. -/
  | outer
  /-- The top directory. -/
  | top
  /-- The directory of devices. -/
  | devices
  /-- Another directory in the top directory. -/
  | system
deriving DecidableEq, Repr

/-- The directory above a directory. -/
def Directory.parent : Directory → Directory
  | working | outer => outer
  | top | devices | system => top

/-- The directories in the top directory besides that of devices. -/
def systemDirectories : List String :=
  ["bin", "boot", "etc", "home", "lib", "media", "mnt", "opt", "proc", "root", "run", "sbin", "srv",
    "sys", "tmp", "usr", "var"]

/-- What a name stands for in a directory. -/
inductive Entry where
  | directory (d : Directory)
  | file (text : String)
deriving DecidableEq, Repr

/-- The files in the working directory. -/
structure Files where
  /-- The files with their contents. -/
  entries : List (String × String) := []
deriving DecidableEq, Repr, Inhabited

namespace Files

/-- What a name in a directory stands for, if anything. The null device is an empty file. -/
def find? (fs : Files) (name : String) : Directory → Option Entry
  | .working => (fs.entries.lookup name).map .file
  | .outer | .system => none
  | .top =>
    if name = "dev" then some (.directory .devices)
    else if systemDirectories.contains name then some (.directory .system)
    else none
  | .devices => if name = "null" then some (.file "") else none

/-- What a name in a directory stands for, if anything: the directory itself, the one above it, or an
entry. -/
def entry (fs : Files) (d : Directory) (name : String) : Except PathFault (Option Entry) :=
  if name = "." then .ok (some (.directory d))
  else if name = ".." then .ok (some (.directory d.parent))
  else if Path.maxNameSize < name.utf8ByteSize then .error .tooLong
  else .ok (fs.find? name d)

/-- Enter the directory with a name. -/
def enter (fs : Files) (d : Directory) (name : String) : Except PathFault Directory := do
  match ← fs.entry d name with
  | none => throw .missing
  | some (.file _) => throw .notDirectory
  | some (.directory d) => return d

/-- The directory that holds the last name of a path. -/
def holder (fs : Files) (path : Path) : Except PathFault Directory :=
  path.parents.foldlM fs.enter (if path.absolute then .top else .working)

/-- Read the file at a path. -/
def read (fs : Files) (text : String) : Except FileError String := do
  let found : Except PathFault Entry := do
    let path ← Path.parse text
    let d ← fs.holder path
    match path.last with
    | none => return .directory d
    | some name =>
      match ← fs.entry d name with
      | none => throw .missing
      | some (.file contents) => if path.closed then throw .notDirectory else return .file contents
      | some (.directory d) => return .directory d
  match ← found.mapError (.opening text) with
  | .file contents => return contents
  | .directory _ => throw (.reading text .isDirectory)

/-- Give the file with a name its contents. -/
def put (fs : Files) (name contents : String) : Files :=
  ⟨(name, contents) :: fs.entries.filter (·.1 ≠ name)⟩

/-- Write the file at a path. Only files in the working directory are kept. -/
def write (fs : Files) (text contents : String) : Except FileError Files :=
  Except.mapError (.opening text) do
    let path ← Path.parse text
    let d ← fs.holder path
    match path.last with
    | none => throw .isDirectory
    | some name =>
      if path.closed then throw .isDirectory
      match ← fs.entry d name with
      | some (.directory _) => throw .isDirectory
      | _ => return if d = .working then fs.put name contents else fs

/-- A file that was put is found under its name. -/
theorem find?_put (fs : Files) (name contents : String) :
    (fs.put name contents).find? name .working = some (.file contents) := by
  simp [put, find?]

end Files

end TensorKernel.CommandLine
